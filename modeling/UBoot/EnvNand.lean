import Mathlib.Data.List.GetD
import UBoot.Crc32
import UBoot.PowerCut

/-!
# The redundant environment in NAND flash: `common/env_nand.c`

The memory is a function of the offset in the device; programming clears bits
only, and a block is set by erasing it. Which blocks are bad is fixed. Both
`writeenv` and `readenv` start at `CONFIG_ENV_OFFSET` whatever offset they are
given, which only moves the end of the range they search.
-/

set_option autoImplicit false

namespace UBoot.EnvNand
open UBoot.PowerCut

structure Config where
  envOffset : ℕ
  envOffsetRedund : ℕ
  envSize : ℕ
  envRange : ℕ
  erasesize : ℕ
  erasesize_pos : 0 < erasesize
  aligned : erasesize ∣ envOffset
  alignedRedund : erasesize ∣ envOffsetRedund
  /-- The redundant range is behind the first one. -/
  apart : envOffset+envRange ≤ envOffsetRedund

abbrev Memory := ℕ → UInt8
abbrev Image := List UInt8

variable (cfg : Config) (bad : ℕ → Bool)

/-- The bytes of a block that are used. -/
def Config.len : ℕ := min cfg.erasesize cfg.envSize

/-! ## `writeenv` and `readenv` -/

/-- The good blocks that the loops go through, and the amount at their end. -/
@[grind]
def envBlocks (stop : ℕ) : ℕ → ℕ → ℕ → List ℕ × ℕ
  | 0, _, amount => ([], amount)
  | fuel+1, offset, amount =>
    if amount < cfg.envSize ∧ offset < stop then
      if bad offset then envBlocks stop fuel (offset+cfg.erasesize) amount
      else
        let r := envBlocks stop fuel (offset+cfg.erasesize) (amount+cfg.len)
        (offset::r.1, r.2)
    else ([], amount)

/-- The loop of `writeenv` and of `readenv`, given their offset. -/
def loopBlocks (offset : ℕ) : List ℕ × ℕ :=
  envBlocks cfg bad (offset+cfg.envRange) (offset+cfg.envRange) cfg.envOffset 0

/-- One call of `nand_write`. -/
structure Write where
  offset : ℕ
  bytes : List UInt8

def Write.apply (w : Write) (mem : Memory) : Memory := fun a =>
  if w.offset ≤ a ∧ a < w.offset+w.bytes.length then mem a &&& w.bytes.getD (a-w.offset) 0 else mem a

/-- Only the bytes from `lo` up to `hi` have changed. -/
def Within (lo hi : ℕ) (mem mem' : Memory) : Prop := ∀ a, a < lo ∨ hi ≤ a → mem' a = mem a

/-- A write that fails or is cut changes its own bytes only. -/
def Write.torn (w : Write) (mem mem' : Memory) : Prop :=
  Within w.offset (w.offset+w.bytes.length) mem mem'

@[grind]
def writes : List ℕ → Image → List Write
  | [], _ => []
  | b::blocks, buf => ⟨b, buf.take cfg.len⟩::writes blocks (buf.drop cfg.len)

/-- `writeenv`: its calls of `nand_write`, and its result if none of them fails. -/
def writeenv (offset : ℕ) (buf : Image) : List Write × Bool :=
  let r := loopBlocks cfg bad offset
  (writes cfg r.1 buf, r.2 == cfg.envSize)

@[grind]
def readBlocks (mem : Memory) : List ℕ → Image
  | [] => []
  | b::blocks => (List.range cfg.len).map (fun j => mem (b+j)) ++ readBlocks mem blocks

/-- `readenv`: the buffer, which is not filled to its end if blocks are missing. -/
def readenv (mem : Memory) (offset : ℕ) (buf : Image) : Image :=
  let r := readBlocks cfg mem (loopBlocks cfg bad offset).1
  (r ++ buf.drop r.length).take cfg.envSize

/-! ## `saveenv` and `env_relocate_spec` -/

def le32 (x : UInt32) : List UInt8 :=
  [x.toUInt8, (x >>> 8).toUInt8, (x >>> 16).toUInt8, (x >>> 24).toUInt8]

/-- `env_t` in memory. -/
def image (crc32 : List UInt8 → UInt32) (flags : UInt8) (data : List UInt8) : Image :=
  le32 (crc32 data) ++ flags::data

def flagsOf (e : Image) : UInt8 := e.getD 4 0
def dataOf (e : Image) : List UInt8 := e.drop 5

def crcOk (crc32 : List UInt8 → UInt32) (e : Image) : Bool := e.take 4 == le32 (crc32 (dataOf e))

/-- `gd->env_valid` and the serial number. -/
structure Session where
  envValid : ℕ
  envFlags : UInt8
  deriving DecidableEq

/-- The area that is erased, which is also the offset that `writeenv` is given. -/
def target (s : Session) : ℕ := if s.envValid = 1 then cfg.envOffsetRedund else cfg.envOffset

/-- A block that is erased, of those that `nand_erase_opts` goes through. -/
def inErased (offset a : ℕ) : Bool :=
  let length := (cfg.envRange+cfg.erasesize-1)/cfg.erasesize*cfg.erasesize
  decide (offset ≤ a ∧ a < offset+length) && !bad (offset+(a-offset)/cfg.erasesize*cfg.erasesize)

def eraseArea (offset : ℕ) (mem : Memory) : Memory := fun a =>
  if inErased cfg bad offset a then 0xff else mem a

/-- The serial number is raised before anything else. -/
def Session.raised (s : Session) : Session := ⟨s.envValid, s.envFlags+1⟩

def Session.toggled (s : Session) : Session := ⟨if s.envValid = 2 then 1 else 2, s.envFlags⟩

/-- Which of two good copies is taken, by their serial numbers. -/
def newer (f1 f2 : UInt8) : ℕ :=
  if f1 = 255 ∧ f2 = 0 then 2
  else if f2 = 255 ∧ f1 = 0 then 1
  else if f2 < f1 then 1
  else if f1 < f2 then 2
  else 1

/-- `env_relocate_spec`, with what the two buffers held before; no data is the default. -/
def envRelocateSpec (crc32 : List UInt8 → UInt32) (mem : Memory) (buf1 buf2 : Image) (s : Session) :
    Session × Option (List UInt8) :=
  let e1 := readenv cfg bad mem cfg.envOffset buf1
  let e2 := readenv cfg bad mem cfg.envOffsetRedund buf2
  let ok1 := crcOk crc32 e1
  let ok2 := crcOk crc32 e2
  if ok1 = false ∧ ok2 = false then (s, none)
  else
    let valid := if ok1 = true ∧ ok2 = false then 1
      else if ok1 = false ∧ ok2 = true then 2
      else newer (flagsOf e1) (flagsOf e2)
    let ep := if valid = 1 then e1 else e2
    (⟨valid, flagsOf ep⟩, some (dataOf ep))

/-- `env_init` before it. -/
def fresh : Session := ⟨1, 0⟩

/-! ## The blocks of the environment -/

/-- Once the environment is complete a later end of the range makes no difference. -/
theorem envBlocks_mono (stop stop' fuel fuel' offset amount : ℕ) (hs : stop ≤ stop')
    (hf : fuel ≤ fuel') (h : (envBlocks cfg bad stop fuel offset amount).2 = cfg.envSize) :
    envBlocks cfg bad stop' fuel' offset amount = envBlocks cfg bad stop fuel offset amount := by
  induction fuel generalizing offset amount fuel' with
  | zero =>
    have ha : amount = cfg.envSize := h
    cases fuel' with
    | zero => rfl
    | succ fuel' =>
      have hc : ¬(amount < cfg.envSize ∧ offset < stop') := by omega
      simp only [envBlocks, if_neg hc]
  | succ fuel ih =>
    obtain ⟨fuel', rfl⟩ : ∃ k, fuel' = k+1 := ⟨fuel'-1, by omega⟩
    rw [envBlocks] at h ⊢
    rw [envBlocks]
    by_cases hc : amount < cfg.envSize ∧ offset < stop
    · rw [if_pos hc] at h ⊢
      rw [if_pos ⟨hc.1, by omega⟩]
      by_cases hb : bad offset = true
      · rw [if_pos hb] at h ⊢
        rw [if_pos hb]
        exact ih fuel' _ amount (by omega) h
      · rw [if_neg hb] at h ⊢
        rw [if_neg hb]
        simp only at h ⊢
        rw [ih fuel' _ _ (by omega) h]
    · rw [if_neg hc] at h ⊢
      have ha : amount = cfg.envSize := h
      rw [if_neg (by omega)]

/-- The blocks are good, at block boundaries and in rising order. -/
theorem envBlocks_blocks (stop fuel offset amount : ℕ) (ha : cfg.erasesize ∣ offset) :
    (∀ b ∈ (envBlocks cfg bad stop fuel offset amount).1, offset ≤ b ∧ b < stop ∧ bad b = false ∧
      cfg.erasesize ∣ b) ∧
    (envBlocks cfg bad stop fuel offset amount).1.Pairwise (fun b b' => b+cfg.erasesize ≤ b') ∧
    (envBlocks cfg bad stop fuel offset amount).2 =
      amount+(envBlocks cfg bad stop fuel offset amount).1.length*cfg.len := by
  induction fuel generalizing offset amount with
  | zero => simp [envBlocks]
  | succ fuel ih =>
    have hnext : cfg.erasesize ∣ offset+cfg.erasesize := dvd_add ha dvd_rfl
    rw [envBlocks]
    by_cases hc : amount < cfg.envSize ∧ offset < stop
    · rw [if_pos hc]
      by_cases hb : bad offset = true
      · rw [if_pos hb]
        obtain ⟨h1, h2, h3⟩ := ih _ amount hnext
        refine ⟨fun b hmem => ?_, h2, h3⟩
        obtain ⟨hlow, hrest⟩ := h1 b hmem
        exact ⟨by omega, hrest⟩
      · rw [if_neg hb]
        obtain ⟨h1, h2, h3⟩ := ih _ (amount+cfg.len) hnext
        simp only
        refine ⟨fun b hmem => ?_, List.pairwise_cons.mpr ⟨fun b hmem => (h1 b hmem).1, h2⟩, ?_⟩
        · rcases List.mem_cons.mp hmem with rfl | hmem
          · exact ⟨le_rfl, hc.2, by simpa using hb, ha⟩
          · obtain ⟨hlow, hrest⟩ := h1 b hmem
            exact ⟨by omega, hrest⟩
        · rw [h3, List.length_cons, Nat.add_mul]
          omega
    · rw [if_neg hc]
      simp

theorem length_readBlocks (mem : Memory) (blocks : List ℕ) :
    (readBlocks cfg mem blocks).length = blocks.length*cfg.len := by
  induction blocks with
  | nil => simp [readBlocks]
  | cons b blocks ih =>
    rw [readBlocks, List.length_append, List.length_map, List.length_range, ih, List.length_cons,
      Nat.add_mul]
    omega

/-- What is read depends on the bytes of the blocks only. -/
theorem readBlocks_congr (mem mem' : Memory) (blocks : List ℕ)
    (h : ∀ b ∈ blocks, ∀ j < cfg.len, mem' (b+j) = mem (b+j)) :
    readBlocks cfg mem' blocks = readBlocks cfg mem blocks := by
  induction blocks with
  | nil => rfl
  | cons b blocks ih =>
    rw [readBlocks, readBlocks, ih fun b' hb' => h b' (List.mem_cons_of_mem _ hb')]
    congr 1
    refine List.map_congr_left fun j hj => ?_
    exact h b List.mem_cons_self j (List.mem_range.mp hj)

/-- Writes to later blocks leave the bytes before them. -/
theorem writes_before (blocks : List ℕ) (buf : Image) (mem : Memory) (a : ℕ)
    (h : ∀ b ∈ blocks, a < b) : runAll Write.apply (writes cfg blocks buf) mem a = mem a := by
  induction blocks generalizing buf mem with
  | nil => rfl
  | cons b blocks ih =>
    rw [writes, runAll_cons, ih _ _ fun b' hb' => h b' (List.mem_cons_of_mem _ hb')]
    have hlt := h b List.mem_cons_self
    simp only [Write.apply]
    rw [if_neg (by omega)]

/-- The written image is what the blocks held, with the bits of the image cleared that it clears. -/
theorem read_write (blocks : List ℕ) (buf : Image) (mem : Memory)
    (hp : blocks.Pairwise (fun b b' => b+cfg.erasesize ≤ b')) (hl : buf.length = blocks.length*cfg.len) :
    readBlocks cfg (runAll Write.apply (writes cfg blocks buf) mem) blocks =
      List.zipWith (· &&& ·) (readBlocks cfg mem blocks) buf := by
  induction blocks generalizing buf mem with
  | nil => simp [readBlocks]
  | cons b blocks ih =>
    obtain ⟨hlater, hp'⟩ := List.pairwise_cons.mp hp
    have hlen : cfg.len ≤ cfg.erasesize := min_le_left _ _
    rw [List.length_cons, Nat.add_mul, Nat.one_mul] at hl
    have htake : (buf.take cfg.len).length = cfg.len := by
      rw [List.length_take]
      omega
    -- the first write keeps the later blocks, and the later writes keep the first block
    have hrest : readBlocks cfg (Write.apply ⟨b, buf.take cfg.len⟩ mem) blocks =
        readBlocks cfg mem blocks := by
      refine readBlocks_congr cfg _ _ blocks fun b' hb' j hj => ?_
      have := hlater b' hb'
      simp only [Write.apply, htake]
      rw [if_neg (by omega)]
    have hfirst : (List.range cfg.len).map (fun j => runAll Write.apply (writes cfg blocks
        (buf.drop cfg.len)) (Write.apply ⟨b, buf.take cfg.len⟩ mem) (b+j)) =
        List.zipWith (· &&& ·) ((List.range cfg.len).map fun j => mem (b+j)) (buf.take cfg.len) := by
      apply List.ext_getElem
      · simp [htake]
      · intro j h1 h2
        rw [List.length_map, List.length_range] at h1
        have hin : j < (buf.take cfg.len).length := by omega
        rw [List.getElem_map, List.getElem_range, List.getElem_zipWith, List.getElem_map,
          List.getElem_range, writes_before cfg _ _ _ _ fun b' hb' => by
            have := hlater b' hb'
            omega]
        simp only [Write.apply, htake]
        rw [if_pos (by omega), Nat.add_sub_cancel_left, List.getD_eq_getElem _ _ hin]
    rw [writes, runAll_cons, readBlocks, readBlocks, hfirst,
      ih _ _ hp' (by rw [List.length_drop]; omega), hrest]
    conv_rhs => rw [← List.take_append_drop cfg.len buf]
    rw [List.zipWith_append (by simp [htake])]

/-- The first range has the blocks that an environment needs. -/
def Roomy : Prop := (loopBlocks cfg bad cfg.envOffset).2 = cfg.envSize

/-- The blocks of the first range that hold an environment. -/
def area : List ℕ := (loopBlocks cfg bad cfg.envOffset).1

theorem area_blocks : ∀ b ∈ area cfg bad, cfg.envOffset ≤ b ∧ b < cfg.envOffset+cfg.envRange ∧
    bad b = false ∧ cfg.erasesize ∣ b :=
  (envBlocks_blocks cfg bad _ _ cfg.envOffset 0 cfg.aligned).1

theorem area_pairwise : (area cfg bad).Pairwise (fun b b' => b+cfg.erasesize ≤ b') :=
  (envBlocks_blocks cfg bad _ _ cfg.envOffset 0 cfg.aligned).2.1

theorem area_length (hr : Roomy cfg bad) : (area cfg bad).length*cfg.len = cfg.envSize := by
  have h := (envBlocks_blocks cfg bad (cfg.envOffset+cfg.envRange) (cfg.envOffset+cfg.envRange)
    cfg.envOffset 0 cfg.aligned).2.2
  rw [Nat.zero_add] at h
  exact h.symm.trans hr

/-- Given either offset, both functions work on the first range. -/
theorem loopBlocks_redund (hr : Roomy cfg bad) :
    loopBlocks cfg bad cfg.envOffsetRedund = loopBlocks cfg bad cfg.envOffset := by
  have hle := cfg.apart
  exact envBlocks_mono cfg bad _ _ _ _ _ _ (by omega) (by omega) hr

theorem writeenv_eq (hr : Roomy cfg bad) (offset : ℕ)
    (ho : offset = cfg.envOffset ∨ offset = cfg.envOffsetRedund) (buf : Image) :
    writeenv cfg bad offset buf = (writes cfg (area cfg bad) buf, true) := by
  have hloop : loopBlocks cfg bad offset = loopBlocks cfg bad cfg.envOffset := by
    rcases ho with rfl | rfl
    · rfl
    · exact loopBlocks_redund cfg bad hr
  have hamount : (loopBlocks cfg bad cfg.envOffset).2 = cfg.envSize := hr
  simp [writeenv, hloop, hamount, area]

theorem readenv_eq (hr : Roomy cfg bad) (mem : Memory) (offset : ℕ)
    (ho : offset = cfg.envOffset ∨ offset = cfg.envOffsetRedund) (buf : Image) :
    readenv cfg bad mem offset buf = readBlocks cfg mem (area cfg bad) := by
  have hloop : loopBlocks cfg bad offset = loopBlocks cfg bad cfg.envOffset := by
    rcases ho with rfl | rfl
    · rfl
    · exact loopBlocks_redund cfg bad hr
  have hlen : (readBlocks cfg mem (area cfg bad)).length = cfg.envSize := by
    rw [length_readBlocks, area_length cfg bad hr]
  unfold readenv
  simp only [hloop]
  rw [List.take_append_of_le_length (by exact hlen.ge), List.take_of_length_le (by exact hlen.le)]
  rfl

/-- Erasing the redundant range leaves the first one. -/
theorem read_within_redund (mem mem' : Memory) (hi : ℕ) (h : Within cfg.envOffsetRedund hi mem mem') :
    readBlocks cfg mem' (area cfg bad) = readBlocks cfg mem (area cfg bad) := by
  refine readBlocks_congr cfg mem mem' _ fun b hb j hj => h _ (.inl ?_)
  obtain ⟨-, hlt, -, hd⟩ := area_blocks cfg bad b hb
  have hlen : cfg.len ≤ cfg.erasesize := min_le_left _ _
  have hapart := cfg.apart
  have hnext : b+cfg.erasesize ≤ cfg.envOffsetRedund := by
    obtain ⟨x, hx⟩ := hd
    obtain ⟨y, hy⟩ := cfg.alignedRedund
    have hxy : x < y := by
      by_contra hge
      have := Nat.mul_le_mul_left cfg.erasesize (Nat.le_of_not_lt hge)
      omega
    have := Nat.mul_le_mul_left cfg.erasesize (Nat.succ_le_of_lt hxy)
    rw [Nat.mul_succ] at this
    omega
  omega

/-- Good blocks in the range that is erased read as erased. -/
theorem readBlocks_erased (offset : ℕ) (ha : cfg.erasesize ∣ offset) (mem : Memory)
    (blocks : List ℕ) (hblocks : ∀ b ∈ blocks, offset ≤ b ∧ b < offset+cfg.envRange ∧
      bad b = false ∧ cfg.erasesize ∣ b) :
    readBlocks cfg (eraseArea cfg bad offset mem) blocks =
      List.replicate (blocks.length*cfg.len) 0xff := by
  rw [List.eq_replicate_iff]
  refine ⟨length_readBlocks cfg _ blocks, ?_⟩
  induction blocks with
  | nil => simp [readBlocks]
  | cons b blocks ih =>
    rw [readBlocks]
    intro x hx
    rcases List.mem_append.mp hx with hx | hx
    · obtain ⟨j, hj, rfl⟩ := List.mem_map.mp hx
      rw [List.mem_range] at hj
      have hlen : cfg.len ≤ cfg.erasesize := min_le_left _ _
      obtain ⟨hlow, hlt, hgood, hd⟩ := hblocks b List.mem_cons_self
      have hpos := cfg.erasesize_pos
      obtain ⟨k, hk⟩ : cfg.erasesize ∣ b-offset := Nat.dvd_sub hd ha
      have hdiv : (b+j-offset)/cfg.erasesize = k := by
        rw [show b+j-offset = cfg.erasesize*k+j by omega, Nat.mul_add_div hpos,
          Nat.div_eq_of_lt (by omega), Nat.add_zero]
      have hend : k+1 ≤ (cfg.envRange+cfg.erasesize-1)/cfg.erasesize := by
        rw [Nat.le_div_iff_mul_le hpos, Nat.add_mul, Nat.mul_comm k]
        omega
      have hmul := Nat.mul_le_mul_right cfg.erasesize hend
      rw [Nat.add_mul, Nat.mul_comm k] at hmul
      have herased : inErased cfg bad offset (b+j) = true := by
        unfold inErased
        simp only [hdiv, Bool.and_eq_true, decide_eq_true_eq, Bool.not_eq_true']
        refine ⟨by omega, ?_⟩
        rw [Nat.mul_comm k, ← hk, Nat.add_sub_cancel' hlow]
        exact hgood
      simp only [eraseArea, herased, if_true]
    · exact ih (fun b' hb' => hblocks b' (List.mem_cons_of_mem _ hb')) x hx

theorem read_erased (hr : Roomy cfg bad) (mem : Memory) :
    readBlocks cfg (eraseArea cfg bad cfg.envOffset mem) (area cfg bad) =
      List.replicate cfg.envSize 0xff := by
  rw [readBlocks_erased cfg bad cfg.envOffset cfg.aligned mem _ (area_blocks cfg bad),
    area_length cfg bad hr]

end UBoot.EnvNand
