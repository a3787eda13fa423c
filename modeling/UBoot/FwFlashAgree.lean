import UBoot.FwFlashBlocks
import Mathlib

/-!
# Reading back what the Linux tool wrote

An access that goes through the blocks it needs reads what it wrote, keeps the other bytes of
the blocks and stays in the configured sectors. On NAND every access does. On the other flashes
`flash_write_buf` erases and writes all sectors, but has read only those of the environment.
-/

set_option autoImplicit false

namespace UBoot.FwFlash
open UBoot.ByteStore UBoot.BlockMap UBoot.PowerCut

variable (d : Envdev) (bad : ℕ → Option Bool)

/-- The good blocks of the configured sectors cannot hold the environment. -/
def TooFew (count : ℕ) : Prop := 0 < count ∧
  goodCount (flashBadBlock d bad) d.eraseSize d.blockstart d.envSectors*d.eraseSize < d.total count

/-- What is right about writing and reading `count` bytes at `DEVOFFSET`, when no call to the
driver fails. -/
structure Agrees (count : ℕ) : Prop where
  /-- What a write that succeeded has written is read. -/
  back : ∀ (mem : Memory) (heap : ℕ → UInt8) (buf : List UInt8), buf.length = count →
    (flashWriteBuf d bad mem heap buf d.devoff).2 = true →
    (flashReadBuf d bad (afterWrite d bad mem heap buf d.devoff) count d.devoff).2 = some buf
  /-- The bytes that are not the environment's are kept. -/
  others : ∀ (mem : Memory) (heap : ℕ → UInt8) (buf : List UInt8), buf.length = count →
    ∀ a, (∀ p ∈ (flashReadBuf d bad mem count d.devoff).1, ¬Within p a) →
    afterWrite d bad mem heap buf d.devoff a = mem a
  readInside : ∀ (mem : Memory), ∀ p ∈ (flashReadBuf d bad mem count d.devoff).1,
    ∀ a, Within p a → d.Inside a
  writeInside : ∀ (mem : Memory) (heap : ℕ → UInt8) (buf : List UInt8), buf.length = count →
    ∀ c ∈ (flashWriteBuf d bad mem heap buf d.devoff).1, ∀ a, Within c.range a → d.Inside a
  fewer : TooFew d bad count → ∀ (mem : Memory) (heap : ℕ → UInt8) (buf : List UInt8),
    buf.length = count → (flashReadBuf d bad mem count d.devoff).2 = none ∧
      (flashWriteBuf d bad mem heap buf d.devoff).2 = false

/-! ## An access -/

theorem run_reads (ps : List (ℕ × ℕ)) (mem : Memory) :
    runAll (Call.apply d.mtdType) (ps.map fun p => Call.read p.1 p.2) mem = mem := by
  induction ps with
  | nil => rfl
  | cons p ps ih => exact ih

theorem inMemory_of_lt (heap : ℕ → UInt8) (bytes : List UInt8) (k : ℕ) (hk : k < bytes.length) :
    inMemory heap bytes k = bytes[k] := List.getD_eq_getElem _ _ hk

theorem inMemory_of_ge (heap : ℕ → UInt8) (bytes : List UInt8) (k : ℕ) (hk : bytes.length ≤ k) :
    inMemory heap bytes k = heap k := List.getD_eq_default _ _ hk

theorem length_overlay (old buf : List UInt8) (seek : ℕ) (hroom : seek+buf.length ≤ old.length) :
    (overlay old seek buf).length = old.length := by
  rw [overlay, List.length_append, List.length_append, List.length_take, List.length_drop]
  omega

/-- The environment is where it belongs, and the other bytes are as they were read. -/
theorem overlay_byte (heap : ℕ → UInt8) (old buf : List UInt8) (seek k : ℕ) (hk : k < old.length)
    (hroom : seek+buf.length ≤ old.length) : inMemory heap (overlay old seek buf) k =
      if seek ≤ k ∧ k < seek+buf.length then buf.getD (k-seek) 0 else old[k] := by
  have hfront : (old.take seek).length = seek := by
    rw [List.length_take]
    omega
  have hmid : (old.take seek ++ buf).length = seek+buf.length := by
    rw [List.length_append, hfront]
  unfold inMemory overlay
  by_cases hlow : k < seek
  · rw [if_neg (by omega), List.getD_append _ _ _ _ (by omega),
      List.getD_append _ _ _ _ (by omega), List.getD_eq_getElem _ _ (by omega),
      List.getElem_take]
  · by_cases hhigh : k < seek+buf.length
    · rw [if_pos ⟨by omega, hhigh⟩, List.getD_append _ _ _ _ (by omega),
        List.getD_append_right _ _ _ _ (by omega), hfront, List.getD_eq_getElem _ _ (by omega),
        List.getD_eq_getElem _ _ (by omega)]
    · rw [if_neg (by omega), List.getD_append_right _ _ _ _ (by omega), hmid,
        List.getD_eq_getElem _ _ (by rw [List.length_drop]; omega), List.getElem_drop]
      congr 1
      omega

section Access

variable {d bad} {count : ℕ} {bs : List ℕ} {ok okw : Bool} (T : Through d bad count bs ok okw)
  (mem : Memory) (heap : ℕ → UInt8) (buf : List UInt8) (hl : buf.length = count)

/-- The calls of `read` in front of the writes. -/
def readsBefore (d : Envdev) (count : ℕ) (bs : List ℕ) : List Call :=
  (pieces d.blockLen 0 (d.total count) bs).map fun p => Call.read p.1 p.2

include T hl in
theorem flashWriteBuf_through : flashWriteBuf d bad mem heap buf d.devoff =
    if count < d.total count then
      if ok = true then
        (readsBefore d count bs ++ writeCalls d d.blockLen (inMemory heap
          (overlay (row d.blockLen mem bs 0 (d.total count)) d.seek buf)) 0 bs, okw)
      else (readsBefore d count bs, false)
    else (writeCalls d d.blockLen (inMemory heap buf) 0 bs, okw) := by
  subst hl
  rw [flashWriteBuf_eq]
  simp only [flashReadBuf, T.before, T.writes]
  by_cases hless : buf.length < d.total buf.length
  · rw [if_pos hless, if_pos hless]
    cases hok : ok with
    | false => rfl
    | true =>
      rw [if_pos rfl, if_pos rfl]
      dsimp only
      rw [load_pieces d.blockLen mem bs 0 _ (Nat.zero_le _) (by rw [T.all hok, Nat.zero_add])]
      rfl
  · rw [if_neg hless, if_neg hless]

include T hl in
/-- The row of the blocks after a write. -/
theorem afterWrite_row (hok : ok = true) (k : ℕ) (hk : k < d.total count) :
    afterWrite d bad mem heap buf d.devoff (addr d.blockLen bs k) =
      if d.seek ≤ k ∧ k < d.seek+count then buf.getD (k-d.seek) 0
      else mem (addr d.blockLen bs k) := by
  have hge := total_ge d count
  have hin : k < bs.length*d.blockLen := by rwa [T.all hok]
  unfold afterWrite
  rw [flashWriteBuf_through T mem heap buf hl]
  by_cases hless : count < d.total count
  · rw [if_pos hless, if_pos hok]
    dsimp only
    unfold readsBefore
    rw [run_append, run_reads, writeCalls_row d _ _ _ 0 mem T.apart k hin, Nat.zero_add,
      overlay_byte heap _ buf d.seek k (by rwa [length_row]) (by rw [length_row, hl]; exact hge), hl]
    simp only [row, List.getElem_map, List.getElem_range', Nat.one_mul, Nat.zero_add]
  · rw [if_neg hless]
    dsimp only
    rw [writeCalls_row d _ _ _ 0 mem T.apart k hin, Nat.zero_add, if_pos (by omega),
      inMemory_of_lt heap buf k (by omega), List.getD_eq_getElem _ _ (by omega)]
    congr 1
    omega

include T hl in
theorem afterWrite_outside (a : ℕ) (ha : ∀ b ∈ bs, ¬Within (b, d.blockLen) a) :
    afterWrite d bad mem heap buf d.devoff a = mem a := by
  unfold afterWrite
  rw [flashWriteBuf_through T mem heap buf hl]
  by_cases hless : count < d.total count
  · rw [if_pos hless]
    unfold readsBefore
    by_cases hok : ok = true
    · rw [if_pos hok]
      dsimp only
      rw [run_append, run_reads, writeCalls_outside d _ _ _ 0 mem a ha]
    · rw [if_neg hok]
      dsimp only
      rw [run_reads]
  · rw [if_neg hless]
    exact writeCalls_outside d _ _ _ 0 mem a ha

include T hl in
/-- With too few blocks either nothing is written, or all that is written is environment. -/
theorem afterWrite_failed (hok : ok = false) :
    count = d.total count ∨ afterWrite d bad mem heap buf d.devoff = mem := by
  have hge := total_ge d count
  by_cases hless : count < d.total count
  · right
    unfold afterWrite
    rw [flashWriteBuf_through T mem heap buf hl, if_pos hless, hok, if_neg Bool.false_ne_true]
    exact run_reads d _ mem
  · left
    omega

include T hl in
theorem through_back (hret : (flashWriteBuf d bad mem heap buf d.devoff).2 = true) :
    (flashReadBuf d bad (afterWrite d bad mem heap buf d.devoff) count d.devoff).2 = some buf := by
  have hge := total_ge d count
  have hokw : okw = true := by
    rw [flashWriteBuf_through T mem heap buf hl] at hret
    by_cases hless : count < d.total count
    · rw [if_pos hless] at hret
      by_cases hok : ok = true
      · rwa [if_pos hok] at hret
      · rw [if_neg hok] at hret
        cases hret
    · rwa [if_neg hless] at hret
  have hok := T.written hokw
  unfold flashReadBuf
  simp only [T.reads]
  rw [hok, Bool.or_true, if_pos rfl,
    load_pieces d.blockLen _ bs d.seek count T.first (by rw [T.all hok]; exact hge)]
  congr 1
  apply List.ext_getElem
  · rw [length_row, hl]
  · intro i h1 h2
    simp only [row, List.getElem_map, List.getElem_range', Nat.one_mul]
    rw [afterWrite_row T mem heap buf hl hok _ (by omega), if_pos (by omega),
      Nat.add_sub_cancel_left, List.getD_eq_getElem _ _ h2]

include T hl in
theorem through_others (a : ℕ)
    (ha : ∀ p ∈ (flashReadBuf d bad mem count d.devoff).1, ¬Within p a) :
    afterWrite d bad mem heap buf d.devoff a = mem a := by
  have hge := total_ge d count
  simp only [flashReadBuf, T.reads] at ha
  by_cases hblock : ∀ b ∈ bs, ¬Within (b, d.blockLen) a
  · exact afterWrite_outside T mem heap buf hl a hblock
  · push Not at hblock
    obtain ⟨b, hb, hw⟩ := hblock
    obtain ⟨k, hk, rfl⟩ := block_addr d.blockLen bs b a hb hw T.apart
    have hmost := T.most
    have hout : ¬(d.seek ≤ k ∧ k < d.seek+count) := by
      rintro ⟨hlow, hhigh⟩
      obtain ⟨p, hp, hin⟩ := addr_pieces d.blockLen bs d.seek count k hlow hhigh hk T.first
      exact ha p hp hin
    cases hok : ok with
    | true =>
      rw [afterWrite_row T mem heap buf hl hok k (by omega), if_neg hout]
    | false =>
      rcases afterWrite_failed T mem heap buf hl hok with hfull | hsame
      · omega
      · rw [hsame]

include T in
theorem piece_inside (seek n : ℕ) (hs : seek ≤ d.blockLen) (p : ℕ × ℕ)
    (hp : p ∈ pieces d.blockLen seek n bs) (a : ℕ) (ha : Within p a) : d.Inside a := by
  obtain ⟨b, hb, hlow, hhigh⟩ := piece_block d.blockLen bs seek n hs p hp
  obtain ⟨hb1, hb2⟩ := T.inside b hb
  obtain ⟨ha1, ha2⟩ := ha
  exact ⟨by omega, by omega⟩

include T hl in
theorem through_inside (c : Call) (hc : c ∈ (flashWriteBuf d bad mem heap buf d.devoff).1) (a : ℕ)
    (ha : Within c.range a) : d.Inside a := by
  have hread : c ∈ readsBefore d count bs → d.Inside a := by
    intro h
    obtain ⟨p, hp, rfl⟩ := List.mem_map.mp h
    exact piece_inside T 0 _ (Nat.zero_le _) p hp a ha
  have hwrite : ∀ data, c ∈ writeCalls d d.blockLen data 0 bs → d.Inside a := by
    intro data h
    obtain ⟨b, hb, hrange⟩ := writeCalls_range d d.blockLen data bs 0 c h
    rw [hrange] at ha
    obtain ⟨hb1, hb2⟩ := T.inside b hb
    exact ⟨le_trans hb1 ha.1, lt_of_lt_of_le ha.2 hb2⟩
  rw [flashWriteBuf_through T mem heap buf hl] at hc
  by_cases hless : count < d.total count
  · rw [if_pos hless] at hc
    by_cases hok : ok = true
    · rw [if_pos hok] at hc
      exact (List.mem_append.mp hc).elim hread (hwrite _)
    · rw [if_neg hok] at hc
      exact hread hc
  · rw [if_neg hless] at hc
    exact hwrite _ hc

include T in
/-- What remains is that too few good blocks are noticed. -/
theorem through_agrees (hfew : TooFew d bad count → ok = false) : Agrees d bad count where
  back := through_back T
  others := through_others T
  readInside := by
    intro mem p hp a ha
    simp only [flashReadBuf, T.reads] at hp
    exact piece_inside T d.seek count T.first p hp a ha
  writeInside := through_inside T
  fewer := by
    intro h mem heap buf hl
    have hok := hfew h
    constructor
    · simp only [flashReadBuf, T.reads]
      rw [hok, decide_eq_false (by have hpos := h.1; omega)]
      rfl
    · have hokw : okw = false := by
        by_contra hne
        have htrue := T.written (by simpa using hne)
        rw [hok] at htrue
        cases htrue
      rw [flashWriteBuf_through T mem heap buf hl]
      by_cases hless : count < d.total count
      · rw [if_pos hless, if_neg (by rw [hok]; exact Bool.false_ne_true)]
      · rw [if_neg hless]
        exact hokw

end Access

/-! ## Flash types -/

theorem agrees_nand (hn : d.mtdType = .nandflash) (count : ℕ) : Agrees d bad count := by
  obtain ⟨fuel, n, htotal, -, T⟩ := through_nand d bad hn count
  apply through_agrees T
  rintro ⟨-, hfew⟩
  by_contra hok
  have hall := (goodBlocks_length (flashBadBlock d bad) d.top d.eraseSize fuel d.blockstart n).2
    (by simpa using hok)
  have hcount := goodBlocks_count (flashBadBlock d bad) d.top d.eraseSize fuel d.blockstart n
    d.envSectors d.eraseSize_pos (top_eq d)
  have hmul := Nat.mul_le_mul_right d.eraseSize (hall ▸ hcount)
  omega

section Range

variable (hn : d.mtdType ≠ .nandflash) (count : ℕ)

include hn in
theorem goodCount_range (sectors : ℕ) :
    goodCount (flashBadBlock d bad) d.eraseSize d.blockstart sectors = sectors := by
  unfold goodCount
  apply Nat.count_of_forall
  exact fun k _ => never_bad d bad hn _

include hn in
theorem agrees_range (ht : d.total count = 0 ∨ d.total count = d.envSectors*d.eraseSize) :
    Agrees d bad count := by
  obtain ⟨bs, okw, T⟩ := through_range d bad hn count ht
  apply through_agrees T
  rintro ⟨hpos, hfew⟩
  rw [goodCount_range d bad hn] at hfew
  have hge := total_ge d count
  omega

include hn in
/-- All of the range is written, behind the environment with what is in the tool's memory. -/
theorem flashWriteBuf_range (mem : Memory) (heap : ℕ → UInt8) (buf : List UInt8)
    (h0 : d.total buf.length ≠ 0) : ∃ reads data,
    (flashWriteBuf d bad mem heap buf d.devoff).1 =
      reads.map (fun p => Call.read p.1 p.2) ++ writeCalls d d.blockLen data 0 [d.blockstart] ∧
    (buf.length < d.total buf.length → reads = [(d.blockstart, d.total buf.length)]) ∧
    ∀ k, d.total buf.length ≤ k → data k = heap k := by
  have hge := total_ge d buf.length
  rw [flashWriteBuf_eq]
  by_cases hless : buf.length < d.total buf.length
  · simp only [if_pos hless, flashReadBuf, readPieces_range d bad hn, if_neg h0, if_true,
      List.flatMap_cons, List.flatMap_nil, List.append_nil, writeLoop_range d bad hn _ h0]
    refine ⟨[(d.blockstart, d.total buf.length)], _, rfl, fun _ => rfl, ?_⟩
    intro k hk
    apply inMemory_of_ge
    rw [length_overlay _ _ _ (by rw [length_load]; exact hge), length_load]
    exact hk
  · rw [if_neg hless, writeLoop_range d bad hn _ h0]
    exact ⟨[], _, rfl, fun h => absurd h hless, fun k hk => inMemory_of_ge heap buf k (by omega)⟩

include hn in
/-- An environment that ends behind the sectors is read all the same. -/
theorem reads_behind (h : Agrees d bad count) : d.total count ≤ d.envSectors*d.eraseSize := by
  by_contra hmore
  have htop := top_eq d
  have hstart := blockstart_seek d
  by_cases hc : count = 0
  · -- the block in front of an empty environment is read to be written back
    subst hc
    obtain ⟨reads, data, hcalls, hreads, -⟩ := flashWriteBuf_range d bad hn (fun _ => 0)
      (fun _ => 0) [] (by
        rw [List.length_nil]
        omega)
    have hcall : Call.read d.blockstart (d.total 0) ∈
        (flashWriteBuf d bad (fun _ => 0) (fun _ => 0) [] d.devoff).1 := by
      rw [hcalls, hreads (by
        rw [List.length_nil]
        omega)]
      exact List.mem_cons_self
    have hin := (h.writeInside (fun _ => 0) (fun _ => 0) [] rfl _ hcall (d.blockstart+d.total 0-1)
      ⟨by dsimp only [Call.range]; omega, by dsimp only [Call.range]; omega⟩).2
    omega
  · have hpiece : (d.devoff, count) ∈ (flashReadBuf d bad (fun _ => 0) count d.devoff).1 := by
      simp only [flashReadBuf, readPieces_range d bad hn, if_neg hc]
      exact List.mem_cons_self
    have hin := (h.readInside (fun _ => 0) _ hpiece (d.devoff+count-1)
      ⟨by dsimp only; omega, by dsimp only; omega⟩).2
    have hlt : (d.seek+count+d.eraseSize-1)/d.eraseSize ≤ d.envSectors := by
      apply Nat.le_of_lt_succ
      apply (Nat.div_lt_iff_lt_mul d.eraseSize_pos).mpr
      rw [Nat.succ_mul]
      omega
    exact hmore (Nat.mul_le_mul_right _ hlt)

include hn in
/-- The sectors behind the environment are overwritten. -/
theorem writes_behind (h : Agrees d bad count) (h0 : d.total count ≠ 0) :
    d.envSectors*d.eraseSize ≤ d.total count := by
  by_contra hless
  have htop := top_eq d
  have hstart := blockstart_seek d
  have hge := total_ge d count
  have hlen : d.blockLen = d.top-d.blockstart := if_neg hn
  have hbuf : (List.replicate count (0 : UInt8)).length = count := List.length_replicate
  have hkept := h.others (fun _ => 0) (fun _ => 1) (List.replicate count 0) hbuf
    (d.blockstart+d.total count) (by
      intro p hp hw
      simp only [flashReadBuf, readPieces_range d bad hn] at hp
      by_cases hc : count = 0
      · rw [if_pos hc] at hp
        exact absurd hp List.not_mem_nil
      · rw [if_neg hc] at hp
        obtain rfl := List.mem_singleton.mp hp
        have hhigh : d.blockstart+d.total count < d.devoff+count := hw.2
        omega)
  obtain ⟨reads, data, hcalls, -, hdata⟩ := flashWriteBuf_range d bad hn (fun _ => 0)
    (fun _ => 1) (List.replicate count 0) (by rwa [hbuf])
  have hrow := writeCalls_row d d.blockLen data [d.blockstart] 0 (fun _ => 0)
    (List.pairwise_singleton _ _) (d.total count) (by
      rw [List.length_singleton, Nat.one_mul]
      omega)
  rw [addr, if_pos (by omega), Nat.zero_add, hdata _ (by rw [hbuf])] at hrow
  unfold afterWrite at hkept
  rw [hcalls, run_append, run_reads, hrow] at hkept
  exact absurd hkept (by decide)

end Range

/-- Writing and reading agree on NAND, and on the other flashes if the environment lies in all of
the configured sectors. -/
theorem agrees_iff (count : ℕ) : Agrees d bad count ↔ d.mtdType = .nandflash ∨
    d.total count = 0 ∨ d.total count = d.envSectors*d.eraseSize := by
  constructor
  · intro h
    by_cases hn : d.mtdType = .nandflash
    · exact .inl hn
    · right
      by_cases h0 : d.total count = 0
      · exact .inl h0
      · exact .inr (le_antisymm (reads_behind d bad hn count h) (writes_behind d bad hn count h h0))
  · rintro (hn | ht)
    · exact agrees_nand d bad hn count
    · by_cases hn : d.mtdType = .nandflash
      · exact agrees_nand d bad hn count
      · exact agrees_range d bad hn count ht

/-- Two sectors of four bytes, the environment in the first one. -/
def norDev : Envdev := ⟨0, 4, 2, .norflash, Nat.succ_pos _⟩

/-- The second sector is overwritten. -/
theorem next_sector_lost : ¬∀ (d : Envdev) (bad : ℕ → Option Bool) (count : ℕ),
    Agrees d bad count := by
  intro h
  have hkept := (h norDev (fun _ => some false) 4).others (fun _ => 0) (fun _ => 1) [1, 2, 3, 4] rfl
    4 (by
      intro p hp hw
      have hp' : p ∈ [(0, 4)] := hp
      obtain rfl := List.mem_singleton.mp hp'
      exact absurd hw.2 (by decide))
  exact absurd hkept (by decide +kernel)

end UBoot.FwFlash
