import UBoot.NandSkipBad

/-!
# Devices on which skipping bad blocks is sound

On a device of at most 4 GiB the three accesses agree. On any larger one there
are bad blocks such that a write with dropped bytes is not read back.
-/

set_option autoImplicit false

namespace UBoot.NandUtil
open UBoot.ByteStore

/-! ## Pieces without a gap -/

theorem Laid.sum {d : Nand} {chip : Chip} {offset left : ℕ} {ps : List (ℕ × ℕ)}
    (h : Laid d chip offset left ps) : (ps.map Prod.snd).sum = left := by
  induction h with
  | done => rfl
  | skip offset left ps _ _ _ _ ih => exact ih
  | piece offset left w ps _ _ _ hw _ ih =>
    rw [List.map_cons, List.sum_cons, ih]
    omega

theorem Contiguous.stored (flash : Memory) (offset : ℕ) (ps : List (ℕ × ℕ)) (buf : List UInt8)
    (h : Contiguous offset ps) (hsum : (ps.map Prod.snd).sum = buf.length) :
    Stored flash ps buf ↔ load flash offset buf.length = buf := by
  induction ps generalizing offset buf with
  | nil =>
    obtain rfl := List.eq_nil_of_length_eq_zero hsum.symm
    exact ⟨fun _ => rfl, fun _ => rfl⟩
  | cons p ps ih =>
    obtain ⟨rfl, hrest⟩ := h
    rw [List.map_cons, List.sum_cons] at hsum
    have hdrop : (buf.drop p.2).length = (ps.map Prod.snd).sum := by
      rw [List.length_drop]
      omega
    have hsplit : load flash p.1 buf.length =
        load flash p.1 p.2 ++ load flash (p.1+p.2) (buf.drop p.2).length := by
      rw [← load_add, hdrop, hsum]
    rw [Stored, ih (p.1+p.2) (buf.drop p.2) hrest hdrop.symm, hsplit]
    constructor
    · rintro ⟨hfirst, hlast⟩
      rw [hfirst, hlast, List.take_append_drop]
    · intro heq
      have hlen : (load flash p.1 p.2).length = (buf.take p.2).length := by
        rw [length_load, List.length_take]
        omega
      have heq' := heq.trans (List.take_append_drop p.2 buf).symm
      exact List.append_inj heq' hlen

theorem Contiguous.covered (offset : ℕ) (ps : List (ℕ × ℕ)) (h : Contiguous offset ps) :
    Covered ps (offset, (ps.map Prod.snd).sum) := by
  induction ps generalizing offset with
  | nil =>
    intro x hx
    have hlt : x < offset+0 := hx.2
    exact absurd hlt (by have hge : offset ≤ x := hx.1; omega)
  | cons p ps ih =>
    intro x hx
    obtain ⟨rfl, hrest⟩ := h
    have hhigh : x < p.1+(p.2+(ps.map Prod.snd).sum) := hx.2
    by_cases hfirst : x < p.1+p.2
    · exact ⟨p, List.mem_cons_self, hx.1, hfirst⟩
    · obtain ⟨q, hq, hqx⟩ := ih (p.1+p.2) hrest x ⟨by omega, by dsimp only; omega⟩
      exact ⟨q, List.mem_cons_of_mem _ hq, hqx⟩

/-! ## Agreement -/

def GoodRange (d : Nand) (chip : Chip) (p : ℕ × ℕ) : Prop :=
  ∀ x, InRange p x → x < d.size ∧ chip.bad (x/d.erasesize) = false

/-- One access of the flash: what is written, where, and how the chip behaves. -/
structure Access (d : Nand) where
  chip : Chip
  flash : Memory
  offset : ℕ
  buffer : List UInt8
  below : ℕ
  drop : Bool
  aligned : offset % d.writesize = 0
  size_t : buffer.length < 2^32
  fits : 0 ≤ checkSkipLen d chip offset buffer.length
  /-- `arg_off` refuses other offsets; this says more than `fits` of an empty buffer only. -/
  inside : offset ≤ d.size
  /-- Trailing bytes are dropped on an erased area only. -/
  erased : drop = true → ∀ ps, Laid d chip offset buffer.length ps →
    ∀ p ∈ ps, ∀ x, InRange p x → flash x = 255

def Access.write {d : Nand} (a : Access d) (turns : ℕ) : Option Written :=
  nandWriteSkipBad d a.chip turns a.flash a.offset a.buffer a.below a.drop

def Access.read {d : Nand} (a : Access d) (turns : ℕ) (flash : Memory) : Option Read :=
  nandReadSkipBad d a.chip turns flash a.offset a.buffer.length

def Access.erase {d : Nand} (a : Access d) (turns : ℕ) : Option Erased :=
  nandEraseOpts d a.chip turns a.flash a.offset a.buffer.length true false

/-- The write comes to an end, and succeeds unless the chip fails. -/
def Access.Ends {d : Nand} (a : Access d) : Prop :=
  (∀ flash ofs n, a.chip.writeFault flash ofs n = none) →
    ∃ n, ∀ turns ≥ n, ∃ r, a.write turns = some r ∧ r.rval = 0

/-- Neither the write nor a read touches a bad block. -/
def Access.OnlyGood {d : Nand} (a : Access d) : Prop :=
  (∀ turns r, a.write turns = some r → ∀ p ∈ r.touched, GoodRange d a.chip p) ∧
    ∀ turns flash s, a.read turns flash = some s → ∀ p ∈ s.touched, GoodRange d a.chip p

/-- After a write that succeeds the bytes are read back, unless the chip fails. -/
def Access.ReadsBack {d : Nand} (a : Access d) : Prop :=
  ∀ turns r, a.write turns = some r → r.rval = 0 → Readable a.chip →
    ∃ n, ∀ turns' ≥ n, ∃ s, a.read turns' r.flash = some s ∧ s.rval = 0 ∧ s.data = a.buffer

/-- The blocks that are written are among those that an erase would be tried on. -/
def Access.ErasesFirst {d : Nand} (a : Access d) : Prop :=
  d.erasesize ∣ a.offset → ∃ n, ∀ turns' ≥ n, ∃ e, a.erase turns' = some e ∧ e.rval = 0 ∧
    ∀ turns r, a.write turns = some r → ∀ p ∈ r.touched, ∀ x, InRange p x →
      x/d.erasesize*d.erasesize ∈ e.blocks

def Access.Agrees {d : Nand} (a : Access d) : Prop :=
  a.Ends ∧ a.OnlyGood ∧ a.ReadsBack ∧ a.ErasesFirst

/-! ## Small devices -/

section Small
variable {d : Nand} (a : Access d)

theorem Access.laid : ∃ ps, Laid d a.chip a.offset a.buffer.length ps ∧
    (checkSkipLen d a.chip a.offset a.buffer.length = 0 → Contiguous a.offset ps) := by
  obtain ⟨ps, hlaid, hzero⟩ :=
    check_laid d a.chip a.buffer.length (d.blocks+1) a.offset 0 0 (.inr rfl) a.fits
  exact ⟨ps, hlaid, fun h => (hzero h).2⟩

theorem Access.write_eq (turns : ℕ) : a.write turns =
    if checkSkipLen d a.chip a.offset a.buffer.length = 0 ∧ a.drop = false then
      some (nandWrite d a.chip a.flash a.offset a.buffer)
    else writeLoop d a.chip a.drop turns a.offset a.buffer a.below a.flash := by
  rw [Access.write, nandWriteSkipBad, if_neg (not_not.mpr a.aligned)]
  dsimp only
  rw [if_neg (not_lt.mpr a.fits)]

theorem Access.read_eq (turns : ℕ) (flash : Memory) : a.read turns flash =
    if checkSkipLen d a.chip a.offset a.buffer.length = 0 then
      let s := nandRead d a.chip flash a.offset a.buffer.length
      if s.rval = 0 ∨ s.rval = euclean then some ⟨0, s.length, s.data, s.touched⟩
      else some ⟨s.rval, 0, s.data, s.touched⟩
    else readLoop d a.chip flash turns a.offset a.buffer.length := by
  rw [Access.read, nandReadSkipBad, if_neg (not_not.mpr a.aligned)]
  dsimp only
  rw [if_neg (not_lt.mpr a.fits)]

variable (hsmall : d.size ≤ 2^32)
include hsmall

theorem Access.write_spec (ps : List (ℕ × ℕ)) (hlaid : Laid d a.chip a.offset a.buffer.length ps)
    (hzero : checkSkipLen d a.chip a.offset a.buffer.length = 0 → Contiguous a.offset ps)
    (turns : ℕ) (r : Written) (h : a.write turns = some r) :
    (∀ q ∈ r.touched, Covered ps q) ∧ (r.rval = 0 → Stored r.flash ps a.buffer) := by
  rw [a.write_eq] at h
  split at h
  · rename_i hfast
    have hcont := hzero hfast.1
    cases h
    constructor
    · intro q hq
      obtain rfl := nandWrite_touched d a.chip a.flash a.offset a.buffer q hq
      rw [← hlaid.sum]
      exact hcont.covered
    · intro hok
      rw [nandWrite_ok d a.chip a.flash a.offset a.buffer hok,
        hcont.stored _ _ _ _ hlaid.sum]
      exact (holds_store a.flash a.offset a.buffer).load_eq
  · have hspec := writeLoop_spec d a.chip a.drop hsmall a.offset _ ps hlaid turns a.buffer a.below
      a.flash r rfl (fun hd => a.erased hd ps hlaid) h
    exact ⟨hspec.1, fun hok => (hspec.2 hok).2⟩

theorem Access.read_touched (ps : List (ℕ × ℕ))
    (hlaid : Laid d a.chip a.offset a.buffer.length ps)
    (hzero : checkSkipLen d a.chip a.offset a.buffer.length = 0 → Contiguous a.offset ps)
    (turns : ℕ) (flash : Memory) (s : Read) (h : a.read turns flash = some s) (q : ℕ × ℕ)
    (hq : q ∈ s.touched) : Covered ps q := by
  rw [a.read_eq] at h
  split at h
  · rename_i hfast
    have htouched : q ∈ (nandRead d a.chip flash a.offset a.buffer.length).touched := by
      dsimp only at h
      split at h <;> cases h <;> exact hq
    obtain rfl := nandRead_touched d a.chip flash a.offset _ q htouched
    rw [← hlaid.sum]
    exact (hzero hfast).covered
  · exact readLoop_touched d a.chip hsmall flash a.offset _ ps hlaid turns s h q hq

omit hsmall in
theorem Access.inside_size (ps : List (ℕ × ℕ)) (hlaid : Laid d a.chip a.offset a.buffer.length ps)
    (hcont : Contiguous a.offset ps) : a.offset+a.buffer.length ≤ d.size := by
  by_contra hout
  have hpos : 0 < a.buffer.length := by
    have hinside := a.inside
    omega
  have hlast : InRange (a.offset, a.buffer.length) (a.offset+a.buffer.length-1) := by
    constructor <;> dsimp only <;> omega
  have hcovered := hcont.covered
  rw [hlaid.sum] at hcovered
  obtain ⟨q, hq, hqx⟩ := hcovered _ hlast
  have hgood := hlaid.good q hq _ hqx
  omega

theorem Access.ends : a.Ends := by
  intro hchip
  obtain ⟨ps, hlaid, hzero⟩ := a.laid
  obtain ⟨n, hn⟩ := writeLoop_ends d a.chip a.drop hsmall hchip a.offset _ ps hlaid
  refine ⟨n, fun turns hturns => ?_⟩
  rw [a.write_eq]
  split
  · rename_i hfast
    exact ⟨_, rfl, nandWrite_rval d a.chip hchip a.flash a.offset a.buffer
      (a.inside_size ps hlaid (hzero hfast.1))⟩
  · exact hn turns hturns a.buffer a.below a.flash rfl

theorem Access.onlyGood : a.OnlyGood := by
  obtain ⟨ps, hlaid, hzero⟩ := a.laid
  constructor
  · intro turns r hr p hp x hx
    obtain ⟨q, hq, hqx⟩ := (a.write_spec hsmall ps hlaid hzero turns r hr).1 p hp x hx
    exact (hlaid.good q hq x hqx).2
  · intro turns flash s hs p hp x hx
    obtain ⟨q, hq, hqx⟩ := a.read_touched hsmall ps hlaid hzero turns flash s hs p hp x hx
    exact (hlaid.good q hq x hqx).2

theorem Access.readsBack : a.ReadsBack := by
  intro turns r hr hok hchip
  obtain ⟨ps, hlaid, hzero⟩ := a.laid
  have hstored := (a.write_spec hsmall ps hlaid hzero turns r hr).2 hok
  by_cases hfast : checkSkipLen d a.chip a.offset a.buffer.length = 0
  · have hcont := hzero hfast
    obtain ⟨hstatus, hdata⟩ := nandRead_ok d a.chip hchip r.flash a.offset a.buffer.length
      (a.inside_size ps hlaid hcont)
    refine ⟨0, fun turns' _ => ?_⟩
    rw [a.read_eq, if_pos hfast]
    dsimp only
    rw [if_pos hstatus]
    refine ⟨_, rfl, rfl, ?_⟩
    dsimp only
    rw [hdata]
    exact (hcont.stored _ _ _ _ hlaid.sum).mp hstored
  · obtain ⟨n, hn⟩ :=
      readLoop_ends d a.chip hsmall hchip r.flash a.offset _ ps hlaid a.buffer hstored
    refine ⟨n, fun turns' hturns => ?_⟩
    rw [a.read_eq, if_neg hfast]
    exact hn turns' hturns

theorem Access.erasesFirst : a.ErasesFirst := by
  intro hdvd
  obtain ⟨ps, hlaid, hzero⟩ := a.laid
  have hpos := erasesize_pos d
  have hE := erasesize_le d
  have htotal : (a.buffer.length+d.erasesize-1)/d.erasesize % 2^32 =
      0+(a.buffer.length+d.erasesize-1)/d.erasesize := by
    have hlt : (a.buffer.length+d.erasesize-1)/d.erasesize < 2^32 := by
      rw [Nat.div_lt_iff_lt_mul hpos]
      have hsize := a.size_t
      omega
    rw [Nat.mod_eq_of_lt hlt, Nat.zero_add]
  obtain ⟨n, hn⟩ := eraseLoop_ends d a.chip a.offset _ ps hlaid _ 0 a.flash hdvd htotal
  refine ⟨n, fun turns' hturns => ?_⟩
  obtain ⟨e, he, hrval, hblocks⟩ := hn turns' hturns
  refine ⟨e, ?_, hrval, ?_⟩
  · rw [Access.erase, nandEraseOpts, if_neg (not_not.mpr (Nat.mod_eq_zero_of_dvd hdvd))]
    exact he
  · intro turns r hr p hp x hx
    obtain ⟨q, hq, hqx⟩ := (a.write_spec hsmall ps hlaid hzero turns r hr).1 p hp x hx
    exact hblocks q hq x hqx

end Small

/-! ## Large devices -/

theorem Laid.unique {d : Nand} {chip : Chip} {offset left : ℕ} {ps qs : List (ℕ × ℕ)}
    (h : Laid d chip offset left ps) (h' : Laid d chip offset left qs) : ps = qs := by
  induction h generalizing qs with
  | done offset => exact h'.nil_of_zero.symm
  | skip offset left ps hleft hsize hbad _ ih =>
    cases h' with
    | done => omega
    | skip _ _ _ _ _ _ hrest => exact ih hrest
    | piece _ _ _ _ _ _ hgood => simp [hbad] at hgood
  | piece offset left w ps hleft hsize hgood hw _ ih =>
    cases h' with
    | done => omega
    | skip _ _ _ _ _ hbad => simp [hgood] at hbad
    | piece _ _ _ ps' _ _ _ hw' hrest =>
      rw [← hw] at hw'
      subst hw'
      rw [ih hrest]

/-- The number of blocks in 4 GiB. -/
def Nand.wrap (d : Nand) : ℕ := 2^(32-d.eraseShift)

theorem wrap_mul (d : Nand) : d.wrap*d.erasesize = 2^32 := by
  have hle := d.eraseShift_le
  rw [Nand.wrap, Nand.erasesize, ← pow_add, Nat.sub_add_cancel (by omega)]

theorem wrap_even (d : Nand) : ∃ k, 0 < k ∧ d.wrap = 2*k := by
  have hle := d.eraseShift_le
  refine ⟨2^(31-d.eraseShift), Nat.two_pow_pos _, ?_⟩
  rw [Nand.wrap, ← pow_succ', show 31-d.eraseShift+1 = 32-d.eraseShift by omega]

theorem block_div (d : Nand) (i : ℕ) : i*d.erasesize/d.erasesize = i :=
  Nat.mul_div_cancel i (erasesize_pos d)

theorem next_block (d : Nand) (i : ℕ) : d.next (i*d.erasesize) = (i+1)*d.erasesize := by
  rw [Nand.next, block_div]

theorem blockOf_block (d : Nand) (i : ℕ) :
    blockOf d (i*d.erasesize) = i % d.wrap*d.erasesize := by
  rw [blockOf, ← wrap_mul, Nat.mul_mod_mul_right, block_div]

section Large
variable (d : Nand) (hlarge : 2^32 < d.size)
include hlarge

theorem wrap_lt_blocks : d.wrap < d.blocks := by
  have hlt : d.wrap*d.erasesize < d.blocks*d.erasesize := by
    rw [wrap_mul]
    exact hlarge
  exact lt_of_mul_lt_mul_right hlt (Nat.zero_le _)

/-- The block that is looked up lies in the first 4 GiB. -/
theorem isbad_wrapped (chip : Chip) (i : ℕ) :
    nandBlockIsbad d chip (blockOf d (i*d.erasesize)) =
      if chip.bad (i % d.wrap) then 1 else 0 := by
  have hpos : 0 < d.wrap := Nat.two_pow_pos _
  have hmod := Nat.mod_lt i hpos
  have hblocks := wrap_lt_blocks d hlarge
  have hle : i % d.wrap*d.erasesize ≤ d.size := Nat.mul_le_mul_right _ (by omega)
  rw [blockOf_block, isbad_inside d chip _ hle, block_div]

end Large

/-- A chip with two bad blocks in the first 4 GiB: the first one, and the second last. -/
def wrapChip (d : Nand) : Chip :=
  { bad := fun i => i = d.wrap-2 ∨ i = 0
    writeFault := fun _ _ _ => none
    readStatus := fun _ _ => 0
    eraseFails := fun _ => false }

/-- A block of zeros, and one more byte. -/
def wrapBuffer (d : Nand) : List UInt8 := List.replicate d.erasesize 0 ++ [255]

/-- Only the last block below 4 GiB and the first block above are erased. -/
def wrapFlash (d : Nand) : Memory := fun x =>
  if (d.wrap-1)*d.erasesize ≤ x ∧ x < (d.wrap+1)*d.erasesize then 255 else 0

theorem wrapBuffer_length (d : Nand) : (wrapBuffer d).length = d.erasesize+1 := by
  rw [wrapBuffer, List.length_append, List.length_replicate, List.length_singleton]

theorem wrapChip_bad (d : Nand) (i : ℕ) :
    (wrapChip d).bad i = decide (i = d.wrap-2 ∨ i = 0) := rfl

section Wrap
variable (d : Nand) (hlarge : 2^32 < d.size)
include hlarge

theorem wrap_laid : Laid d (wrapChip d) ((d.wrap-2)*d.erasesize) (wrapBuffer d).length
    [((d.wrap-1)*d.erasesize, d.erasesize), (d.wrap*d.erasesize, 1)] := by
  obtain ⟨k, hk, hwrap⟩ := wrap_even d
  have hblocks := wrap_lt_blocks d hlarge
  have hpos := erasesize_pos d
  have hsize : ∀ i < d.blocks, i*d.erasesize < d.size :=
    fun i hi => Nat.mul_lt_mul_of_pos_right hi hpos
  have hnext : ∀ i, (i+1)*d.erasesize-i*d.erasesize = d.erasesize := by
    intro i
    rw [Nat.succ_mul, Nat.add_sub_cancel_left]
  have hlen := wrapBuffer_length d
  refine .skip _ _ _ (by omega) (hsize _ (by omega)) ?_ ?_
  · rw [block_div, wrapChip_bad]
    simp
  rw [next_block, show d.wrap-2+1 = d.wrap-1 by omega]
  refine .piece _ _ _ _ (by omega) (hsize _ (by omega)) ?_ ?_ ?_
  · rw [block_div, wrapChip_bad, decide_eq_false_iff_not]
    omega
  · rw [next_block, hnext]
    omega
  rw [next_block, show d.wrap-1+1 = d.wrap by omega]
  refine .piece _ _ _ _ (by omega) (hsize _ hblocks) ?_ ?_ ?_
  · rw [block_div, wrapChip_bad, decide_eq_false_iff_not]
    omega
  · rw [next_block, hnext]
    omega
  · rw [show (wrapBuffer d).length-d.erasesize-1 = 0 by omega]
    exact .done _

omit hlarge in
theorem check_block (chip : Chip) (length turns i excl : ℕ) (ret : ℤ) (hi : i < d.blocks)
    (hexcl : excl < length) :
    checkSkipLoop d chip length (turns+1) (i*d.erasesize) excl ret =
      if chip.bad i then checkSkipLoop d chip length turns ((i+1)*d.erasesize) excl 1
      else checkSkipLoop d chip length turns ((i+1)*d.erasesize)
        ((excl+d.erasesize) % 2^32) ret := by
  have hsize : i*d.erasesize < d.size := Nat.mul_lt_mul_of_pos_right hi (erasesize_pos d)
  rw [checkSkipLoop, if_pos hexcl, if_neg (by omega)]
  dsimp only
  rw [next_eq, next_block, isbad_start d chip _ hsize, block_div, Nat.mul_mod_left, Nat.sub_zero]
  cases chip.bad i <;> rfl

theorem wrap_check : checkSkipLen d (wrapChip d) ((d.wrap-2)*d.erasesize)
    (wrapBuffer d).length = 1 := by
  obtain ⟨k, hk, hwrap⟩ := wrap_even d
  have hblocks := wrap_lt_blocks d hlarge
  have hpos := erasesize_pos d
  have hE := erasesize_le d
  have hlen := wrapBuffer_length d
  obtain ⟨m, hm⟩ : ∃ m, d.blocks+1 = m+1+1+1+1 := ⟨d.blocks-3, by omega⟩
  have hfirst : (wrapChip d).bad (d.wrap-2) = true := by simp [wrapChip_bad]
  have hlast : (wrapChip d).bad (d.wrap-1) = false := by
    rw [wrapChip_bad, decide_eq_false_iff_not]
    omega
  have habove : (wrapChip d).bad d.wrap = false := by
    rw [wrapChip_bad, decide_eq_false_iff_not]
    omega
  rw [checkSkipLen, hm, check_block d _ _ _ _ _ _ (by omega) (by omega), if_pos hfirst,
    show d.wrap-2+1 = d.wrap-1 by omega, check_block d _ _ _ _ _ _ (by omega) (by omega),
    hlast, if_neg (by decide), Nat.zero_add, Nat.mod_eq_of_lt (by omega),
    show d.wrap-1+1 = d.wrap by omega, check_block d _ _ _ _ _ _ (by omega) (by omega), habove,
    if_neg (by decide), Nat.mod_eq_of_lt (by omega), checkSkipLoop, if_neg (by omega)]

omit hlarge in
theorem wrap_aligned : (d.wrap-2)*d.erasesize % d.writesize = 0 := by
  have hdvd : d.writesize ∣ d.erasesize := Nat.pow_dvd_pow 2 d.writeShift_le
  exact Nat.mod_eq_zero_of_dvd (Dvd.dvd.mul_left hdvd _)

omit hlarge in
theorem wrap_size_t : (wrapBuffer d).length < 2^32 := by
  have hE := erasesize_le d
  rw [wrapBuffer_length]
  omega

theorem wrap_fits : 0 ≤ checkSkipLen d (wrapChip d) ((d.wrap-2)*d.erasesize)
    (wrapBuffer d).length := by
  rw [wrap_check d hlarge]
  decide

theorem wrap_inside : (d.wrap-2)*d.erasesize ≤ d.size := by
  have hblocks := wrap_lt_blocks d hlarge
  exact Nat.mul_le_mul_right _ (by omega)

theorem wrap_erased (ps : List (ℕ × ℕ)) (hps : Laid d (wrapChip d) ((d.wrap-2)*d.erasesize)
    (wrapBuffer d).length ps) (p : ℕ × ℕ) (hp : p ∈ ps) (x : ℕ) (hx : InRange p x) :
    wrapFlash d x = 255 := by
  have hE := erasesize_pos d
  have hwrap : (d.wrap-1)*d.erasesize ≤ d.wrap*d.erasesize := Nat.mul_le_mul_right _ (by omega)
  obtain ⟨k, hk, heven⟩ := wrap_even d
  have hsucc : (d.wrap-1)*d.erasesize+d.erasesize = d.wrap*d.erasesize := by
    rw [← Nat.succ_mul, show (d.wrap-1).succ = d.wrap by omega]
  rw [hps.unique (wrap_laid d hlarge)] at hp
  rw [wrapFlash, if_pos]
  rw [Nat.succ_mul]
  simp only [List.mem_cons, List.not_mem_nil, or_false] at hp
  obtain ⟨hlow, hhigh⟩ := hx
  rcases hp with rfl | rfl <;> dsimp only at hlow hhigh <;> omega

/-- The access that is not read back. -/
def wrapAccess : Access d where
  chip := wrapChip d
  flash := wrapFlash d
  offset := (d.wrap-2)*d.erasesize
  buffer := wrapBuffer d
  below := 0
  drop := true
  aligned := wrap_aligned d
  size_t := wrap_size_t d
  fits := wrap_fits d hlarge
  inside := wrap_inside d hlarge
  erased _ := wrap_erased d hlarge

/-- What the loops see of the four blocks around 4 GiB. -/
theorem wrap_lookup (i : ℕ) : nandBlockIsbad d (wrapChip d) (blockOf d (i*d.erasesize)) = 0 ↔
    i % d.wrap ≠ d.wrap-2 ∧ i % d.wrap ≠ 0 := by
  rw [isbad_wrapped d hlarge, wrapChip_bad]
  simp

/-- The access skips the bad block below 4 GiB and gives the block behind it its part of the
buffer. -/
theorem wrap_below :
    nandBlockIsbad d (wrapChip d) (blockOf d ((d.wrap-2)*d.erasesize)) ≠ 0 ∧
    nandBlockIsbad d (wrapChip d) (blockOf d ((d.wrap-1)*d.erasesize)) = 0 ∧
    min (wrapBuffer d).length (d.next ((d.wrap-1)*d.erasesize)-(d.wrap-1)*d.erasesize) =
      d.erasesize ∧
    (d.wrap-1)*d.erasesize+d.erasesize = d.wrap*d.erasesize ∧ d.wrap*d.erasesize ≤ d.size := by
  obtain ⟨k, hk, hwrap⟩ := wrap_even d
  have hblocks := wrap_lt_blocks d hlarge
  have hlen := wrapBuffer_length d
  refine ⟨?_, ?_, ?_, ?_, Nat.mul_le_mul_right _ (by omega)⟩
  · rw [Ne, wrap_lookup d hlarge, Nat.mod_eq_of_lt (by omega)]
    omega
  · rw [wrap_lookup d hlarge, Nat.mod_eq_of_lt (by omega)]
    omega
  · rw [next_block, Nat.succ_mul, Nat.add_sub_cancel_left]
    omega
  · rw [← Nat.succ_mul, show (d.wrap-1).succ = d.wrap by omega]

/-- Above 4 GiB the loops look up the first blocks of the chip. -/
theorem wrap_above :
    nandBlockIsbad d (wrapChip d) (blockOf d (d.wrap*d.erasesize)) ≠ 0 ∧
    nandBlockIsbad d (wrapChip d) (blockOf d ((d.wrap+1)*d.erasesize)) = 0 := by
  obtain ⟨k, hk, hwrap⟩ := wrap_even d
  refine ⟨?_, ?_⟩
  · rw [Ne, wrap_lookup d hlarge, Nat.mod_self]
    simp
  · rw [wrap_lookup d hlarge, Nat.add_mod_left, Nat.mod_eq_of_lt (by omega)]
    omega

omit hlarge in
theorem dropFfs_single : dropFfs d 0 [255] = 0 := by
  have hpos := writesize_pos d
  have hle := writesize_le d
  have hE := erasesize_le d
  have hscan : ([(255 : UInt8)].length+(2^32-ffsAt 0 [255] % 2^32)) % 2^32 = 0 := by decide
  rw [dropFfs, hscan, Nat.zero_add, Nat.mod_eq_of_lt (by omega), Nat.div_eq_of_lt (by omega),
    Nat.zero_mul, Nat.zero_min]

omit hlarge in
theorem ffsAt_zeros : ffsAt 0 (List.replicate d.erasesize 0) = 0 := by
  have hpos := erasesize_pos d
  rw [ffsAt, List.reverse_replicate, List.takeWhile_replicate]
  simp
  omega

/-- The block above 4 GiB is passed over, and the byte is dropped behind it. -/
theorem wrap_dropped (flash : Memory) (turns : ℕ) :
    writeLoop d (wrapChip d) true (turns+2) (d.wrap*d.erasesize) [255] 0 flash =
      some ⟨0, 1, flash, []⟩ := by
  have hblocks := wrap_lt_blocks d hlarge
  have hpos := erasesize_pos d
  have hinside : (d.wrap+1)*d.erasesize ≤ d.size := Nat.mul_le_mul_right _ hblocks
  obtain ⟨hskip, hgood⟩ := wrap_above d hlarge
  have hn : min [(255 : UInt8)].length
      (d.next ((d.wrap+1)*d.erasesize)-(d.wrap+1)*d.erasesize) = 1 := by
    rw [next_block, Nat.succ_mul (d.wrap+1), Nat.add_sub_cancel_left]
    simp only [List.length_singleton]
    omega
  have hwrite : nandWrite d (wrapChip d) flash ((d.wrap+1)*d.erasesize) [] =
      ⟨0, 0, flash, []⟩ := by
    rw [nandWrite, if_neg (by simp only [List.length_nil]; omega), if_pos rfl]
  rw [writeLoop_skip d _ _ _ _ _ _ _ (by simp) hskip, next_block,
    writeLoop_eq d _ _ _ _ _ _ _ (by simp) hgood, hn]
  dsimp only
  rw [if_pos rfl, List.take_succ_cons, List.take_zero, dropFfs_single, List.take_zero, hwrite,
    if_neg (by simp), List.drop_succ_cons, List.drop_nil, writeLoop]
  rfl

theorem wrap_write : ∃ r, (wrapAccess d hlarge).write 4 = some r ∧ r.rval = 0 ∧
    r.flash ((d.wrap+1)*d.erasesize) = 0 := by
  obtain ⟨k, hk, hwrap⟩ := wrap_even d
  have hlen := wrapBuffer_length d
  have hne : wrapBuffer d ≠ [] := List.ne_nil_of_length_pos (by omega)
  obtain ⟨hskip, hgood, hn, hsucc, hend⟩ := wrap_below d hlarge
  have htake : (wrapBuffer d).take d.erasesize = List.replicate d.erasesize 0 := by
    rw [wrapBuffer, List.take_left' (by simp)]
  have hdrop : (wrapBuffer d).drop d.erasesize = [255] := by
    rw [wrapBuffer, List.drop_left' (by simp)]
  rw [(wrapAccess d hlarge).write_eq, if_neg (by rintro ⟨_, hd⟩; cases hd)]
  dsimp only [wrapAccess]
  rw [writeLoop_skip d _ _ _ _ _ _ _ hne hskip, next_block,
    show d.wrap-2+1 = d.wrap-1 by omega, writeLoop_eq d _ _ _ _ _ _ _ hne hgood, hn]
  dsimp only
  rw [htake, hdrop, hsucc, ffsAt_zeros]
  generalize hbuf : (List.replicate d.erasesize (0 : UInt8)).take _ = buf
  have hshort : buf.length ≤ d.erasesize := by
    rw [← hbuf, List.length_take, List.length_replicate]
    omega
  have hok := nandWrite_rval d (wrapChip d) (fun _ _ _ => rfl) (wrapFlash d)
    ((d.wrap-1)*d.erasesize) buf (by omega)
  rw [if_neg (not_not.mpr hok), wrap_dropped d hlarge]
  refine ⟨_, rfl, rfl, ?_⟩
  dsimp only
  rw [nandWrite_ok d _ _ _ _ hok, store_of_outside _ _ _ _ ?_, wrapFlash, if_neg (by omega)]
  right
  rw [Nat.succ_mul]
  omega

/-- Behind the block above 4 GiB stands another byte than the one that was dropped. -/
theorem wrap_behind (flash : Memory) (hflash : flash ((d.wrap+1)*d.erasesize) = 0)
    (turns : ℕ) (s : Read)
    (h : readLoop d (wrapChip d) flash (turns+2) (d.wrap*d.erasesize) 1 = some s)
    (hok : s.rval = 0) : s.data = [0] := by
  have hpos := erasesize_pos d
  obtain ⟨hskip, hgood⟩ := wrap_above d hlarge
  have hn : min 1 (d.next ((d.wrap+1)*d.erasesize)-(d.wrap+1)*d.erasesize) = 1 := by
    rw [next_block, Nat.succ_mul (d.wrap+1), Nat.add_sub_cancel_left]
    omega
  rw [readLoop_skip d _ _ _ _ _ (by omega) hskip, next_block,
    readLoop_eq d _ _ _ _ _ (by omega) hgood, hn] at h
  dsimp only at h
  by_cases hout : (d.wrap+1)*d.erasesize+1 > d.size
  · rw [nandRead, if_pos hout, if_pos (by decide)] at h
    cases h
    exact absurd (show einval = 0 from hok) (by decide)
  · obtain ⟨hstatus, hdata⟩ := nandRead_ok d (wrapChip d) (fun _ _ => .inl rfl) flash
      ((d.wrap+1)*d.erasesize) 1 (by omega)
    rw [if_neg (by tauto), Nat.sub_self, readLoop] at h
    cases h
    dsimp only
    rw [hdata]
    simp [load, hflash]

theorem wrap_not_read (flash : Memory) (hflash : flash ((d.wrap+1)*d.erasesize) = 0)
    (turns : ℕ) (s : Read) (h : (wrapAccess d hlarge).read (turns+4) flash = some s)
    (hok : s.rval = 0) : s.data ≠ wrapBuffer d := by
  obtain ⟨k, hk, hwrap⟩ := wrap_even d
  have hlen := wrapBuffer_length d
  obtain ⟨hskip, hgood, hn, hsucc, hend⟩ := wrap_below d hlarge
  have hneed : checkSkipLen d (wrapAccess d hlarge).chip (wrapAccess d hlarge).offset
      (wrapAccess d hlarge).buffer.length ≠ 0 := by
    have hone := wrap_check d hlarge
    dsimp only [wrapAccess]
    omega
  obtain ⟨hstatus, hdata⟩ := nandRead_ok d (wrapChip d) (fun _ _ => .inl rfl) flash
    ((d.wrap-1)*d.erasesize) d.erasesize (by omega)
  rw [(wrapAccess d hlarge).read_eq, if_neg hneed] at h
  dsimp only [wrapAccess] at h
  rw [readLoop_skip d _ _ _ _ _ (by omega) hskip,
    next_block, show d.wrap-2+1 = d.wrap-1 by omega,
    readLoop_eq d _ _ _ _ _ (by omega) hgood, hn] at h
  dsimp only at h
  rw [if_neg (by tauto), next_block, show d.wrap-1+1 = d.wrap by omega,
    show (wrapBuffer d).length-d.erasesize = 1 by omega] at h
  obtain ⟨r, hr, rfl⟩ := Option.map_eq_some_iff.mp h
  have hlast := wrap_behind d hlarge flash hflash turns r hr hok
  dsimp only
  rw [hdata, hlast, wrapBuffer]
  intro heq
  have heq' := (List.append_inj heq (by rw [length_load, List.length_replicate])).2
  exact absurd heq' (by decide)

theorem wrap_disagrees : ¬ (wrapAccess d hlarge).ReadsBack := by
  intro h
  obtain ⟨r, hr, hok, hflash⟩ := wrap_write d hlarge
  obtain ⟨n, hn⟩ := h 4 r hr hok fun _ _ => .inl rfl
  obtain ⟨s, hs, hzero, hdata⟩ := hn (n+4) (by omega)
  exact wrap_not_read d hlarge r.flash hflash n s hs hzero hdata

end Wrap

/-- Erase, write and read agree on every access exactly if the device has at most 4 GiB. -/
theorem skip_bad_agrees_iff (d : Nand) : (∀ a : Access d, a.Agrees) ↔ d.size ≤ 2^32 := by
  constructor
  · intro h
    by_contra hlarge
    rw [not_le] at hlarge
    exact wrap_disagrees d hlarge (h (wrapAccess d hlarge)).2.2.1
  · intro hsmall a
    exact ⟨a.ends hsmall, a.onlyGood hsmall, a.readsBack hsmall, a.erasesFirst hsmall⟩

/-- A device of 8 GiB with blocks of 128 KiB and pages of 2 KiB. -/
def largeNand : Nand := ⟨17, 11, 65536, by decide, by decide⟩

theorem large_not_read_back : ¬ ∀ a : Access largeNand, a.Agrees := by
  intro h
  exact wrap_disagrees largeNand (by decide) (h (wrapAccess largeNand (by decide))).2.2.1

end UBoot.NandUtil
