import Mathlib.Data.List.TakeWhile
import UBoot.NandUtil

/-!
# Erase, write and read agree on the blocks they use

`Laid` describes the pieces of good blocks that a number of bytes takes from an
offset on. Every loop follows these pieces as long as it looks up the block it
is at. The loops of the write and of the read look up the address modulo 4 GiB.
-/

set_option autoImplicit false

namespace UBoot.NandUtil
open UBoot.ByteStore

/-! ## Blocks -/

def Nand.next (d : Nand) (offset : ℕ) : ℕ := (offset/d.erasesize+1)*d.erasesize

theorem erasesize_pos (d : Nand) : 0 < d.erasesize := Nat.two_pow_pos _

theorem writesize_pos (d : Nand) : 0 < d.writesize := Nat.two_pow_pos _

theorem erasesize_le (d : Nand) : d.erasesize ≤ 2^30 :=
  Nat.pow_le_pow_right (by omega) d.eraseShift_le

theorem writesize_le (d : Nand) : d.writesize ≤ d.erasesize :=
  Nat.pow_le_pow_right (by omega) d.writeShift_le

theorem erasesize_dvd (d : Nand) : d.erasesize ∣ 2^32 :=
  Nat.pow_dvd_pow 2 (le_trans d.eraseShift_le (by omega))

theorem next_eq (d : Nand) (offset : ℕ) :
    offset+(d.erasesize-offset % d.erasesize) = d.next offset := by
  have hlt := Nat.mod_lt offset (erasesize_pos d)
  have hdiv := Nat.div_add_mod offset d.erasesize
  rw [Nand.next, Nat.succ_mul, mul_comm]
  omega

theorem offset_lt_next (d : Nand) (offset : ℕ) : offset < d.next offset := by
  have hlt := Nat.mod_lt offset (erasesize_pos d)
  have hnext := next_eq d offset
  omega

theorem next_dvd (d : Nand) (offset : ℕ) : d.erasesize ∣ d.next offset := Dvd.intro_left _ rfl

theorem div_of_piece (d : Nand) (offset x : ℕ) (h : offset ≤ x) (hx : x < d.next offset) :
    x/d.erasesize = offset/d.erasesize := by
  apply le_antisymm
  · exact Nat.le_of_lt_succ ((Nat.div_lt_iff_lt_mul (erasesize_pos d)).mpr hx)
  · exact Nat.div_le_div_right h

theorem next_le_size (d : Nand) (offset : ℕ) (h : offset < d.size) : d.next offset ≤ d.size := by
  have hlt : offset/d.erasesize < d.blocks := (Nat.div_lt_iff_lt_mul (erasesize_pos d)).mpr h
  exact Nat.mul_le_mul_right _ hlt

/-- The pieces that `left` bytes take from `offset` on. -/
inductive Laid (d : Nand) (chip : Chip) : ℕ → ℕ → List (ℕ × ℕ) → Prop where
  | done (offset : ℕ) : Laid d chip offset 0 []
  | skip (offset left : ℕ) (ps : List (ℕ × ℕ)) (hleft : 0 < left) (hsize : offset < d.size)
      (hbad : chip.bad (offset/d.erasesize) = true) (hrest : Laid d chip (d.next offset) left ps) :
      Laid d chip offset left ps
  | piece (offset left w : ℕ) (ps : List (ℕ × ℕ)) (hleft : 0 < left) (hsize : offset < d.size)
      (hgood : chip.bad (offset/d.erasesize) = false) (hw : w = min left (d.next offset-offset))
      (hrest : Laid d chip (d.next offset) (left-w) ps) :
      Laid d chip offset left ((offset, w) :: ps)

def InRange (p : ℕ × ℕ) (x : ℕ) : Prop := p.1 ≤ x ∧ x < p.1+p.2

/-- Every piece is a part of a good block of the device, from `offset` on. -/
theorem Laid.good {d : Nand} {chip : Chip} {offset left : ℕ} {ps : List (ℕ × ℕ)}
    (h : Laid d chip offset left ps) (p : ℕ × ℕ) (hp : p ∈ ps) (x : ℕ) (hx : InRange p x) :
    offset ≤ x ∧ x < d.size ∧ chip.bad (x/d.erasesize) = false := by
  induction h with
  | done => simp at hp
  | skip offset left ps _ _ _ _ ih =>
    have hrest := ih hp
    exact ⟨le_trans (Nat.le_of_lt (offset_lt_next d offset)) hrest.1, hrest.2⟩
  | piece offset left w ps _ hsize hgood hw _ ih =>
    rcases List.mem_cons.mp hp with rfl | hp
    · obtain ⟨hlow, hhigh⟩ := hx
      have hnext : x < d.next offset := by
        dsimp only at hhigh
        omega
      refine ⟨hlow, lt_of_lt_of_le hnext (next_le_size d offset hsize), ?_⟩
      rw [div_of_piece d offset x hlow hnext]
      exact hgood
    · have hrest := ih hp
      exact ⟨le_trans (Nat.le_of_lt (offset_lt_next d offset)) hrest.1, hrest.2⟩

/-- The pieces follow each other without a gap. -/
@[grind]
def Contiguous : ℕ → List (ℕ × ℕ) → Prop
  | _, [] => True
  | offset, p :: ps => p.1 = offset ∧ Contiguous (offset+p.2) ps

/-- The pieces hold the bytes one after the other. -/
@[grind]
def Stored (flash : Memory) : List (ℕ × ℕ) → List UInt8 → Prop
  | [], buf => buf = []
  | p :: ps, buf => load flash p.1 p.2 = buf.take p.2 ∧ Stored flash ps (buf.drop p.2)

/-- A range lies within the pieces. -/
def Covered (ps : List (ℕ × ℕ)) (p : ℕ × ℕ) : Prop := ∀ x, InRange p x → ∃ q ∈ ps, InRange q x

/-! ## The length check -/

theorem isbad_inside (d : Nand) (chip : Chip) (offs : ℕ) (h : offs ≤ d.size) :
    nandBlockIsbad d chip offs = if chip.bad (offs/d.erasesize) then 1 else 0 := by
  rw [nandBlockIsbad, if_neg (by omega)]

theorem isbad_start (d : Nand) (chip : Chip) (offset : ℕ) (h : offset < d.size) :
    nandBlockIsbad d chip (offset/d.erasesize*d.erasesize) =
      if chip.bad (offset/d.erasesize) then 1 else 0 := by
  have hle := Nat.div_mul_le_self offset d.erasesize
  rw [isbad_inside d chip _ (by omega), Nat.mul_div_cancel _ (erasesize_pos d)]

theorem next_of_dvd (d : Nand) (offset : ℕ) (h : d.erasesize ∣ offset) :
    d.next offset = offset+d.erasesize := by
  rw [← next_eq d offset, Nat.mod_eq_zero_of_dvd h, Nat.sub_zero]

/-- Once the sum has wrapped it takes only values that it had before. -/
theorem check_stuck (d : Nand) (chip : Chip) (length turns offset excl : ℕ) (ret : ℤ)
    (hdvd : d.erasesize ∣ offset) (hexcl : excl < 2^32)
    (hall : ∀ m < 2^32, m % d.erasesize = excl % d.erasesize → m < length) :
    checkSkipLoop d chip length turns offset excl ret = -1 := by
  induction turns generalizing offset excl ret with
  | zero => rfl
  | succ turns ih =>
    have hnext : offset+(d.erasesize-offset % d.erasesize) = offset+d.erasesize := by
      rw [Nat.mod_eq_zero_of_dvd hdvd, Nat.sub_zero]
    have hdvd' : d.erasesize ∣ offset+d.erasesize := Nat.dvd_add hdvd dvd_rfl
    rw [checkSkipLoop, if_pos (hall excl hexcl rfl)]
    split
    · rfl
    · dsimp only
      rw [hnext]
      split
      · apply ih _ _ _ hdvd' (Nat.mod_lt _ (by omega))
        intro m hm heq
        apply hall m hm
        rw [heq, Nat.mod_mod_of_dvd _ (erasesize_dvd d), Nat.mod_eq_zero_of_dvd hdvd,
          Nat.sub_zero, Nat.add_mod_right]
      · exact ih _ _ _ hdvd' hexcl hall

/-- A sum that wraps leaves the check no way to succeed. -/
theorem check_wrapped (d : Nand) (chip : Chip) (length turns offset excl : ℕ) (ret : ℤ)
    (hdvd : d.erasesize ∣ offset) (hlt : excl < length)
    (hwrap : 2^32 ≤ excl+d.erasesize) :
    checkSkipLoop d chip length turns offset ((excl+d.erasesize) % 2^32) ret = -1 := by
  apply check_stuck d chip length turns offset _ ret hdvd (Nat.mod_lt _ (by omega))
  intro m hm heq
  rw [Nat.mod_mod_of_dvd _ (erasesize_dvd d), Nat.add_mod_right] at heq
  by_contra hnot
  -- a larger value of the same residue would be a block away
  have hsub : d.erasesize ∣ m-excl := (Nat.modEq_iff_dvd' (by omega)).mp heq.symm
  have hle := Nat.le_of_dvd (by omega) hsub
  omega

theorem Laid.nil_of_zero {d : Nand} {chip : Chip} {offset : ℕ} {ps : List (ℕ × ℕ)}
    (h : Laid d chip offset 0 ps) : ps = [] := by
  generalize hleft : 0 = left at h
  cases h with
  | done => rfl
  | skip => omega
  | piece => omega

/-- The last piece may end before its block; all others reach up to the next one. -/
theorem contiguous_next (d : Nand) (chip : Chip) (offset left : ℕ) (ps : List (ℕ × ℕ))
    (h : Laid d chip (d.next offset) (left-(d.next offset-offset)) ps)
    (hc : Contiguous (d.next offset) ps) :
    Contiguous (offset+min left (d.next offset-offset)) ps := by
  have hlt := offset_lt_next d offset
  by_cases hle : left ≤ d.next offset-offset
  · rw [Nat.sub_eq_zero_of_le hle] at h
    rw [h.nil_of_zero]
    trivial
  · rw [show offset+min left (d.next offset-offset) = d.next offset by omega]
    exact hc

theorem check_laid (d : Nand) (chip : Chip) (length turns offset excl : ℕ) (ret : ℤ)
    (halign : d.erasesize ∣ offset ∨ excl = 0)
    (h : 0 ≤ checkSkipLoop d chip length turns offset excl ret) :
    ∃ ps : List (ℕ × ℕ), Laid d chip offset (length-excl) ps ∧
      (checkSkipLoop d chip length turns offset excl ret = 0 →
        ret = 0 ∧ Contiguous offset ps) := by
  induction turns generalizing offset excl ret with
  | zero =>
    rw [checkSkipLoop] at h
    omega
  | succ turns ih =>
    rw [checkSkipLoop] at h ⊢
    split at h
    · rename_i hlt
      rw [if_pos hlt]
      split at h
      · omega
      · rename_i hinside
        have hsize : offset < d.size := by omega
        rw [if_neg hinside]
        dsimp only at h ⊢
        rw [next_eq, isbad_start d chip offset hsize] at h ⊢
        cases hbad : chip.bad (offset/d.erasesize) with
        | true =>
          simp only [hbad, if_true, one_ne_zero, if_false] at h ⊢
          obtain ⟨ps, hps, hzero⟩ := ih (d.next offset) excl 1 (.inl (next_dvd d offset)) h
          refine ⟨ps, .skip offset _ ps (by omega) hsize hbad hps, ?_⟩
          intro hc
          exact absurd (hzero hc).1 one_ne_zero
        | false =>
          simp only [hbad, Bool.false_eq_true, if_true, if_false] at h ⊢
          have hlen : d.erasesize-offset % d.erasesize = d.next offset-offset := by
            have hnext := next_eq d offset
            omega
          have hle : d.next offset-offset ≤ d.erasesize := by omega
          have hnowrap : excl+(d.next offset-offset) < 2^32 := by
            by_contra hwrap
            have hdvd : d.erasesize ∣ offset := by
              have hsmall := erasesize_le d
              rcases halign with hdvd | rfl
              · exact hdvd
              · omega
            rw [Nat.mod_eq_zero_of_dvd hdvd, Nat.sub_zero, check_wrapped d chip length turns _
              excl ret (next_dvd d offset) hlt (by omega)] at h
            omega
          rw [hlen, Nat.mod_eq_of_lt hnowrap] at h ⊢
          obtain ⟨ps, hps, hzero⟩ := ih (d.next offset) _ ret (.inl (next_dvd d offset)) h
          have hrest : length-excl-min (length-excl) (d.next offset-offset) =
              length-(excl+(d.next offset-offset)) := by omega
          refine ⟨_, .piece offset _ _ ps (by omega) hsize hbad rfl (hrest ▸ hps), ?_⟩
          intro hc
          exact ⟨(hzero hc).1, rfl, contiguous_next d chip offset _ ps (Nat.sub_sub length _ _ ▸ hps)
            (hzero hc).2⟩
    · rename_i hge
      rw [if_neg hge, Nat.sub_eq_zero_of_le (by omega)]
      exact ⟨[], .done offset, fun hc => ⟨hc, trivial⟩⟩

/-! ## Trailing bytes -/

theorem trailing_ffs (chunk : List UInt8) (b : UInt8)
    (h : b ∈ chunk.drop (chunk.length-(chunk.reverse.takeWhile (· = 255)).length)) :
    b = 255 := by
  have htake : chunk.reverse.takeWhile (· = 255) =
      chunk.reverse.take (chunk.reverse.takeWhile (· = 255)).length :=
    (List.prefix_iff_eq_take.mp (List.takeWhile_prefix _))
  have hmem : b ∈ chunk.reverse.takeWhile (· = 255) := by
    rw [htake, List.take_reverse, List.mem_reverse]
    exact h
  simpa using List.mem_takeWhile_imp hmem

/-- What `drop_ffs` drops is `0xFF`, also where its index has passed the start of the buffer. -/
theorem dropFfs_spec (d : Nand) (below : ℕ) (chunk : List UInt8)
    (hlen : chunk.length ≤ d.erasesize) (b : UInt8) (hb : b ∈ chunk.drop (dropFfs d below chunk)) :
    b = 255 := by
  apply trailing_ffs chunk b
  have htrailing : (chunk.reverse.takeWhile (· = 255)).length ≤ chunk.length := by
    simpa using (List.takeWhile_prefix (l := chunk.reverse) (· = 255)).length_le
  by_cases hall : (chunk.reverse.takeWhile (· = 255)).length = chunk.length
  · rw [hall, Nat.sub_self]
    exact List.mem_of_mem_drop hb
  · have hround : chunk.length-(chunk.reverse.takeWhile (· = 255)).length ≤
        dropFfs d below chunk := by
      rw [dropFfs, ffsAt, if_neg hall]
      generalize (chunk.reverse.takeWhile (· = 255)).length = t at htrailing hall
      have hE := erasesize_le d
      have hW := writesize_le d
      have hpos := writesize_pos d
      have hmod : (chunk.length+(2^32-t % 2^32)) % 2^32 = chunk.length-t := by omega
      have hup := Nat.div_add_mod (chunk.length-t+d.writesize-1) d.writesize
      have hlt := Nat.mod_lt (chunk.length-t+d.writesize-1) hpos
      rw [hmod, Nat.mod_eq_of_lt (by omega), mul_comm]
      omega
    have hsub : chunk.drop (dropFfs d below chunk) <:+
        chunk.drop (chunk.length-(chunk.reverse.takeWhile (· = 255)).length) :=
      List.drop_suffix_drop_left chunk hround
    exact hsub.subset hb

/-! ## The loop of the write -/

theorem blockOf_small (d : Nand) (offset : ℕ) (hsmall : d.size ≤ 2^32) (h : offset < d.size) :
    blockOf d offset = offset/d.erasesize*d.erasesize := by
  rw [blockOf, Nat.mod_eq_of_lt (by omega)]

theorem isbad_of_bad (d : Nand) (chip : Chip) (offset : ℕ) (hsmall : d.size ≤ 2^32)
    (h : offset < d.size) (hbad : chip.bad (offset/d.erasesize) = true) :
    nandBlockIsbad d chip (blockOf d offset) ≠ 0 := by
  rw [blockOf_small d offset hsmall h, isbad_start d chip offset h, hbad]
  decide

theorem isbad_of_good (d : Nand) (chip : Chip) (offset : ℕ) (hsmall : d.size ≤ 2^32)
    (h : offset < d.size) (hgood : chip.bad (offset/d.erasesize) = false) :
    nandBlockIsbad d chip (blockOf d offset) = 0 := by
  rw [blockOf_small d offset hsmall h, isbad_start d chip offset h, hgood]
  rfl

theorem chunk_size (d : Nand) (offset n : ℕ) :
    (if n < d.erasesize-offset % d.erasesize then n else d.erasesize-offset % d.erasesize) =
      min n (d.next offset-offset) := by
  have hnext := next_eq d offset
  split <;> omega

theorem nandWrite_touched (d : Nand) (chip : Chip) (flash : Memory) (ofs : ℕ) (buf : List UInt8)
    (p : ℕ × ℕ) (hp : p ∈ (nandWrite d chip flash ofs buf).touched) : p = (ofs, buf.length) := by
  unfold nandWrite at hp
  split at hp
  · simp at hp
  · split at hp
    · simp at hp
    · split at hp <;> exact List.mem_singleton.mp hp

theorem nandWrite_ok (d : Nand) (chip : Chip) (flash : Memory) (ofs : ℕ) (buf : List UInt8)
    (h : (nandWrite d chip flash ofs buf).rval = 0) :
    (nandWrite d chip flash ofs buf).flash = store flash ofs buf := by
  unfold nandWrite at h ⊢
  split at h
  · exact absurd (show einval = 0 from h) (by decide)
  · rename_i hinside
    rw [if_neg hinside]
    split at h
    · rename_i hnil
      rw [if_pos hnil, hnil]
      rfl
    · rename_i hnil
      rw [if_neg hnil]
      split at h
      · exact absurd (show eio = 0 from h) (by decide)
      · rfl

theorem writeLoop_none (d : Nand) (chip : Chip) (drop : Bool) (offset : ℕ) (buf : List UInt8)
    (below : ℕ) (flash : Memory) (hbuf : buf ≠ []) :
    writeLoop d chip drop 0 offset buf below flash = none := by
  cases buf with
  | nil => exact absurd rfl hbuf
  | cons b rest => rfl

theorem writeLoop_skip (d : Nand) (chip : Chip) (drop : Bool) (turns offset : ℕ)
    (buf : List UInt8) (below : ℕ) (flash : Memory) (hbuf : buf ≠ [])
    (hbad : nandBlockIsbad d chip (blockOf d offset) ≠ 0) :
    writeLoop d chip drop (turns+1) offset buf below flash =
      writeLoop d chip drop turns (d.next offset) buf below flash := by
  cases buf with
  | nil => exact absurd rfl hbuf
  | cons b rest =>
    rw [writeLoop]
    dsimp only
    rw [if_pos hbad, next_eq]

theorem writeLoop_eq (d : Nand) (chip : Chip) (drop : Bool) (turns offset : ℕ)
    (buf : List UInt8) (below : ℕ) (flash : Memory) (hbuf : buf ≠ [])
    (hgood : nandBlockIsbad d chip (blockOf d offset) = 0) :
    writeLoop d chip drop (turns+1) offset buf below flash =
      let n := min buf.length (d.next offset-offset)
      let t := if drop then dropFfs d below (buf.take n) else n
      let w := nandWrite d chip flash offset ((buf.take n).take t)
      if w.rval ≠ 0 then some ⟨w.rval, 0, w.flash, w.touched⟩
      else
        (writeLoop d chip drop turns (offset+n) (buf.drop n) (ffsAt below (buf.take n))
            w.flash).map fun r =>
          ⟨r.rval, n+r.length, r.flash, w.touched ++ r.touched⟩ := by
  cases buf with
  | nil => exact absurd rfl hbuf
  | cons b rest =>
    rw [writeLoop]
    dsimp only
    rw [if_neg (not_not.mpr hgood), chunk_size]

theorem nandWrite_rval (d : Nand) (chip : Chip)
    (hchip : ∀ flash ofs n, chip.writeFault flash ofs n = none) (flash : Memory) (ofs : ℕ)
    (buf : List UInt8) (h : ofs+buf.length ≤ d.size) :
    (nandWrite d chip flash ofs buf).rval = 0 := by
  rw [nandWrite, if_neg (by omega), hchip]
  split <;> rfl

theorem holds_const (flash : Memory) (p : ℕ) (bs : List UInt8) (hbs : ∀ b ∈ bs, b = 255)
    (h : ∀ x, p ≤ x → x < p+bs.length → flash x = 255) : Holds flash p bs := by
  induction bs generalizing p with
  | nil => trivial
  | cons b bs ih =>
    rw [List.length_cons] at h
    constructor
    · rw [h p le_rfl (by omega), hbs b (by simp)]
    · exact ih (p+1) (fun c hc => hbs c (by simp [hc])) fun x h1 h2 => h x (by omega) (by omega)

/-- A chunk whose trailing `0xFF` are not written is there after all, if they were there before. -/
theorem load_truncated (flash : Memory) (p t : ℕ) (chunk : List UInt8)
    (hdrop : ∀ b ∈ chunk.drop t, b = 255)
    (herased : t < chunk.length → ∀ x, p ≤ x → x < p+chunk.length → flash x = 255) :
    load (store flash p (chunk.take t)) p chunk.length = chunk := by
  have hholds : Holds (store flash p (chunk.take t)) p (chunk.take t ++ chunk.drop t) := by
    rw [holds_append]
    refine ⟨holds_store flash p _, holds_const _ _ _ hdrop ?_⟩
    intro x hlow hhigh
    rw [List.length_take] at hlow hhigh
    rw [List.length_drop] at hhigh
    have hlt : t < chunk.length := by omega
    rw [store_of_outside flash p _ x (by rw [List.length_take]; omega)]
    exact herased hlt x (by omega) (by omega)
  rw [List.take_append_drop] at hholds
  exact hholds.load_eq

theorem load_written (d : Nand) (drop : Bool) (below : ℕ) (flash : Memory) (offset : ℕ)
    (chunk : List UInt8) (t : ℕ)
    (ht : t = if drop then dropFfs d below chunk else chunk.length)
    (hlen : chunk.length ≤ d.erasesize)
    (herased : drop = true → ∀ x, offset ≤ x → x < offset+chunk.length → flash x = 255) :
    load (store flash offset (chunk.take t)) offset chunk.length = chunk := by
  cases drop with
  | false =>
    rw [ht]
    apply load_truncated
    · intro b hb
      simp at hb
    · intro hlt
      simp at hlt
  | true =>
    rw [ht]
    apply load_truncated
    · intro b hb
      exact dropFfs_spec d below chunk hlen b hb
    · intro _ x hlow hhigh
      exact herased rfl x hlow hhigh

/-- The next turn starts at the next block, unless it is the last. -/
theorem writeLoop_next (d : Nand) (chip : Chip) (drop : Bool) (turns offset n left : ℕ)
    (hn : n = min left (d.next offset-offset)) (buf : List UInt8) (below : ℕ) (flash : Memory)
    (hbuf : buf.length = left-n) :
    writeLoop d chip drop turns (d.next offset) buf below flash =
      writeLoop d chip drop turns (offset+n) buf below flash := by
  have hlt := offset_lt_next d offset
  cases buf with
  | nil => cases turns <;> rw [writeLoop, writeLoop]
  | cons b rest =>
    rw [List.length_cons] at hbuf
    rw [show offset+n = d.next offset by omega]

/-- What the loop does on the pieces: it touches nothing else, and puts the bytes there. -/
theorem writeLoop_spec (d : Nand) (chip : Chip) (drop : Bool) (hsmall : d.size ≤ 2^32)
    (offset left : ℕ) (ps : List (ℕ × ℕ)) (hlaid : Laid d chip offset left ps)
    (turns : ℕ) (buf : List UInt8) (below : ℕ) (flash : Memory) (r : Written)
    (hbuf : buf.length = left)
    (herased : drop = true → ∀ p ∈ ps, ∀ x, InRange p x → flash x = 255)
    (h : writeLoop d chip drop turns offset buf below flash = some r) :
    (∀ q ∈ r.touched, Covered ps q) ∧
      (r.rval = 0 → (∀ x < offset, r.flash x = flash x) ∧ Stored r.flash ps buf) := by
  induction hlaid generalizing turns buf below flash r with
  | done offset =>
    obtain rfl := List.eq_nil_of_length_eq_zero hbuf
    rw [writeLoop] at h
    cases h
    exact ⟨by simp, fun _ => ⟨fun _ _ => rfl, rfl⟩⟩
  | skip offset left ps hleft hsize hbad _ ih =>
    have hne : buf ≠ [] := List.ne_nil_of_length_pos (by omega)
    cases turns with
    | zero =>
      rw [writeLoop_none d chip drop offset buf below flash hne] at h
      cases h
    | succ turns =>
      have hisbad := isbad_of_bad d chip offset hsmall hsize hbad
      rw [writeLoop_skip d chip drop turns offset buf below flash hne hisbad] at h
      have hrest := ih turns buf below flash r hbuf herased h
      refine ⟨hrest.1, fun hok => ⟨?_, (hrest.2 hok).2⟩⟩
      intro x hx
      exact (hrest.2 hok).1 x (lt_trans hx (offset_lt_next d offset))
  | piece offset left n ps hleft hsize hgood hw hps ih =>
    have hne : buf ≠ [] := List.ne_nil_of_length_pos (by omega)
    cases turns with
    | zero =>
      rw [writeLoop_none d chip drop offset buf below flash hne] at h
      cases h
    | succ turns =>
      have hisgood := isbad_of_good d chip offset hsmall hsize hgood
      rw [writeLoop_eq d chip drop turns offset buf below flash hne hisgood, hbuf, ← hw] at h
      dsimp only at h
      generalize ht : (if drop then dropFfs d below (buf.take n) else n) = t at h
      generalize hwr : nandWrite d chip flash offset ((buf.take n).take t) = wr at h
      have hnext := offset_lt_next d offset
      have hchunk : (buf.take n).length = n := by
        rw [List.length_take]
        omega
      have hlen : n ≤ d.erasesize := by
        have heq := next_eq d offset
        omega
      have htouched : ∀ q ∈ wr.touched, Covered ((offset, n) :: ps) q := by
        intro q hq x hx
        rw [← hwr] at hq
        obtain rfl := nandWrite_touched d chip flash offset _ q hq
        have hle : ((buf.take n).take t).length ≤ n := by
          rw [List.length_take]
          omega
        exact ⟨_, List.mem_cons_self, hx.1, lt_of_lt_of_le hx.2 (by dsimp only; omega)⟩
      by_cases hok : wr.rval = 0
      · rw [if_neg (not_not.mpr hok)] at h
        obtain ⟨s, hs, rfl⟩ := Option.map_eq_some_iff.mp h
        rw [← hwr] at hok
        have hstore := nandWrite_ok d chip flash offset _ hok
        rw [hwr] at hstore
        have hs' : writeLoop d chip drop turns (d.next offset) (buf.drop n)
            (ffsAt below (buf.take n)) wr.flash = some s := by
          rw [← hs]
          exact writeLoop_next d chip drop turns offset n left hw _ _ _ (by simp [hbuf])
        have hbehind : ∀ x, d.next offset ≤ x → wr.flash x = flash x := by
          intro x hx
          rw [hstore]
          exact store_of_outside flash offset _ x (by simp only [List.length_take]; omega)
        have herased' : drop = true → ∀ p ∈ ps, ∀ x, InRange p x → wr.flash x = 255 := by
          intro hd p hp x hx
          rw [hbehind x (hps.good p hp x hx).1]
          exact herased hd p (by simp [hp]) x hx
        have hrest := ih turns (buf.drop n) _ wr.flash s (by simp [hbuf]) herased' hs'
        constructor
        · intro q hq
          rcases List.mem_append.mp hq with hq | hq
          · exact htouched q hq
          · intro x hx
            obtain ⟨p, hp, hpx⟩ := hrest.1 q hq x hx
            exact ⟨p, by simp [hp], hpx⟩
        · intro hzero
          obtain ⟨hbefore, hstored⟩ := hrest.2 hzero
          refine ⟨?_, ?_, hstored⟩
          · intro x hx
            rw [hbefore x (by omega), hstore]
            exact store_of_outside flash offset _ x (.inl hx)
          · dsimp only
            rw [load_congr wr.flash s.flash offset n fun x _ hx => hbefore x (by omega), hstore]
            have hload := load_written d drop below flash offset (buf.take n) t
            rw [hchunk] at hload
            exact hload ht.symm hlen fun hd x hlow hhigh =>
              herased hd (offset, n) List.mem_cons_self x ⟨hlow, hhigh⟩
      · rw [if_pos hok] at h
        cases h
        exact ⟨htouched, fun h0 => absurd h0 hok⟩

/-- On a chip whose writes do not fail the loop comes to its end. -/
theorem writeLoop_ends (d : Nand) (chip : Chip) (drop : Bool) (hsmall : d.size ≤ 2^32)
    (hchip : ∀ flash ofs n, chip.writeFault flash ofs n = none)
    (offset left : ℕ) (ps : List (ℕ × ℕ)) (hlaid : Laid d chip offset left ps) :
    ∃ n, ∀ turns ≥ n, ∀ (buf : List UInt8) (below : ℕ) (flash : Memory), buf.length = left →
      ∃ r, writeLoop d chip drop turns offset buf below flash = some r ∧ r.rval = 0 := by
  induction hlaid with
  | done offset =>
    refine ⟨0, fun turns _ buf below flash hbuf => ?_⟩
    obtain rfl := List.eq_nil_of_length_eq_zero hbuf
    exact ⟨_, by rw [writeLoop], rfl⟩
  | skip offset left ps hleft hsize hbad _ ih =>
    obtain ⟨n, hn⟩ := ih
    refine ⟨n+1, fun turns hturns buf below flash hbuf => ?_⟩
    obtain ⟨turns, rfl⟩ := Nat.exists_eq_add_of_le' (show 1 ≤ turns by omega)
    have hisbad := isbad_of_bad d chip offset hsmall hsize hbad
    rw [writeLoop_skip d chip drop turns offset buf below flash
      (List.ne_nil_of_length_pos (by omega)) hisbad]
    exact hn turns (by omega) buf below flash hbuf
  | piece offset left w ps hleft hsize hgood hw _ ih =>
    obtain ⟨n, hn⟩ := ih
    refine ⟨n+1, fun turns hturns buf below flash hbuf => ?_⟩
    obtain ⟨turns, rfl⟩ := Nat.exists_eq_add_of_le' (show 1 ≤ turns by omega)
    have hisgood := isbad_of_good d chip offset hsmall hsize hgood
    have hinside := next_le_size d offset hsize
    have hnext := offset_lt_next d offset
    rw [writeLoop_eq d chip drop turns offset buf below flash
      (List.ne_nil_of_length_pos (by omega)) hisgood, hbuf, ← hw]
    rw [if_neg (not_not.mpr (nandWrite_rval d chip hchip flash offset _ ?_)),
      ← writeLoop_next d chip drop turns offset w left hw _ _ _ (by simp [hbuf])]
    · obtain ⟨r, hr, hzero⟩ := hn turns (by omega) (buf.drop w) _ _ (by simp [hbuf])
      rw [hr]
      exact ⟨_, rfl, hzero⟩
    · simp only [List.length_take]
      omega

/-! ## The loop of the read -/

theorem readLoop_skip (d : Nand) (chip : Chip) (flash : Memory) (turns offset left : ℕ)
    (hleft : 0 < left) (hbad : nandBlockIsbad d chip (blockOf d offset) ≠ 0) :
    readLoop d chip flash (turns+1) offset left =
      readLoop d chip flash turns (d.next offset) left := by
  cases left with
  | zero => omega
  | succ left =>
    rw [readLoop]
    dsimp only
    rw [if_pos hbad, next_eq]

theorem readLoop_eq (d : Nand) (chip : Chip) (flash : Memory) (turns offset left : ℕ)
    (hleft : 0 < left) (hgood : nandBlockIsbad d chip (blockOf d offset) = 0) :
    readLoop d chip flash (turns+1) offset left =
      let n := min left (d.next offset-offset)
      let s := nandRead d chip flash offset n
      if s.rval ≠ 0 ∧ s.rval ≠ euclean then some ⟨s.rval, 0, s.data, s.touched⟩
      else
        (readLoop d chip flash turns (d.next offset) (left-n)).map fun r =>
          ⟨r.rval, n+r.length, s.data ++ r.data, s.touched ++ r.touched⟩ := by
  cases left with
  | zero => omega
  | succ left =>
    have hlt := offset_lt_next d offset
    rw [readLoop]
    dsimp only
    rw [if_neg (not_not.mpr hgood), chunk_size]
    congr 2
    by_cases hlast : left+1 ≤ d.next offset-offset
    · rw [Nat.min_eq_left hlast, Nat.sub_self]
      cases turns <;> rw [readLoop, readLoop]
    · rw [show offset+min (left+1) (d.next offset-offset) = d.next offset by omega]

theorem nandRead_touched (d : Nand) (chip : Chip) (flash : Memory) (ofs len : ℕ) (p : ℕ × ℕ)
    (hp : p ∈ (nandRead d chip flash ofs len).touched) : p = (ofs, len) := by
  unfold nandRead at hp
  split at hp
  · simp at hp
  · split at hp
    · simp at hp
    · exact List.mem_singleton.mp hp

/-- The status of a read of which all bytes are there. -/
def Readable (chip : Chip) : Prop :=
  ∀ ofs n, chip.readStatus ofs n = 0 ∨ chip.readStatus ofs n = euclean

theorem nandRead_ok (d : Nand) (chip : Chip) (hchip : Readable chip) (flash : Memory)
    (ofs len : ℕ) (h : ofs+len ≤ d.size) :
    ((nandRead d chip flash ofs len).rval = 0 ∨ (nandRead d chip flash ofs len).rval = euclean) ∧
      (nandRead d chip flash ofs len).data = load flash ofs len := by
  rw [nandRead, if_neg (by omega)]
  split
  · rename_i hzero
    rw [hzero]
    exact ⟨.inl rfl, rfl⟩
  · exact ⟨hchip ofs len, rfl⟩

theorem readLoop_touched (d : Nand) (chip : Chip) (hsmall : d.size ≤ 2^32) (flash : Memory)
    (offset left : ℕ) (ps : List (ℕ × ℕ)) (hlaid : Laid d chip offset left ps) (turns : ℕ)
    (s : Read) (h : readLoop d chip flash turns offset left = some s) (q : ℕ × ℕ)
    (hq : q ∈ s.touched) : Covered ps q := by
  induction hlaid generalizing turns s with
  | done offset =>
    rw [readLoop] at h
    cases h
    simp at hq
  | skip offset left ps hleft hsize hbad _ ih =>
    cases turns with
    | zero =>
      obtain ⟨left, rfl⟩ := Nat.exists_eq_add_of_le' hleft
      cases h
    | succ turns =>
      have hisbad := isbad_of_bad d chip offset hsmall hsize hbad
      rw [readLoop_skip d chip flash turns offset left hleft hisbad] at h
      exact ih turns s h hq
  | piece offset left w ps hleft hsize hgood hw _ ih =>
    cases turns with
    | zero =>
      obtain ⟨left, rfl⟩ := Nat.exists_eq_add_of_le' hleft
      cases h
    | succ turns =>
      have hisgood := isbad_of_good d chip offset hsmall hsize hgood
      have hfirst : ∀ p ∈ (nandRead d chip flash offset w).touched,
          Covered ((offset, w) :: ps) p := by
        intro p hp x hx
        obtain rfl := nandRead_touched d chip flash offset w p hp
        exact ⟨_, List.mem_cons_self, hx⟩
      rw [readLoop_eq d chip flash turns offset left hleft hisgood, ← hw] at h
      dsimp only at h
      split at h
      · cases h
        exact hfirst q hq
      · obtain ⟨r, hr, rfl⟩ := Option.map_eq_some_iff.mp h
        rcases List.mem_append.mp hq with hq | hq
        · exact hfirst q hq
        · intro x hx
          obtain ⟨p, hp, hpx⟩ := ih turns r hr hq x hx
          exact ⟨p, by simp [hp], hpx⟩

theorem readLoop_ends (d : Nand) (chip : Chip) (hsmall : d.size ≤ 2^32)
    (hchip : Readable chip) (flash : Memory) (offset left : ℕ) (ps : List (ℕ × ℕ))
    (hlaid : Laid d chip offset left ps) (buf : List UInt8) (hstored : Stored flash ps buf) :
    ∃ n, ∀ turns ≥ n, ∃ s, readLoop d chip flash turns offset left = some s ∧ s.rval = 0 ∧
      s.data = buf := by
  induction hlaid generalizing buf with
  | done offset =>
    refine ⟨0, fun turns _ => ⟨⟨0, 0, [], []⟩, by rw [readLoop], rfl, ?_⟩⟩
    exact hstored.symm
  | skip offset left ps hleft hsize hbad _ ih =>
    obtain ⟨n, hn⟩ := ih buf hstored
    refine ⟨n+1, fun turns hturns => ?_⟩
    obtain ⟨turns, rfl⟩ := Nat.exists_eq_add_of_le' (show 1 ≤ turns by omega)
    have hisbad := isbad_of_bad d chip offset hsmall hsize hbad
    rw [readLoop_skip d chip flash turns offset left hleft hisbad]
    exact hn turns (by omega)
  | piece offset left w ps hleft hsize hgood hw _ ih =>
    obtain ⟨n, hn⟩ := ih (buf.drop w) hstored.2
    refine ⟨n+1, fun turns hturns => ?_⟩
    obtain ⟨turns, rfl⟩ := Nat.exists_eq_add_of_le' (show 1 ≤ turns by omega)
    have hisgood := isbad_of_good d chip offset hsmall hsize hgood
    have hinside := next_le_size d offset hsize
    have hnext := offset_lt_next d offset
    obtain ⟨hstatus, hdata⟩ := nandRead_ok d chip hchip flash offset w (by omega)
    obtain ⟨s, hs, hzero, hrest⟩ := hn turns (by omega)
    rw [readLoop_eq d chip flash turns offset left hleft hisgood, ← hw]
    dsimp only
    rw [if_neg (by tauto), hs]
    refine ⟨_, rfl, hzero, ?_⟩
    dsimp only
    rw [hdata, hrest, hstored.1, List.take_append_drop]

/-! ## The loop of the erase -/

/-- The blocks that hold the bytes are erased, and no more turns are needed than these. -/
theorem eraseLoop_ends (d : Nand) (chip : Chip) (offset left : ℕ) (ps : List (ℕ × ℕ))
    (hlaid : Laid d chip offset left ps) (total done : ℕ) (flash : Memory)
    (hdvd : d.erasesize ∣ offset)
    (htotal : total = done+(left+d.erasesize-1)/d.erasesize) :
    ∃ n, ∀ turns ≥ n, ∃ e, eraseLoop d chip true false total turns offset done flash = some e ∧
      e.rval = 0 ∧ ∀ p ∈ ps, ∀ x, InRange p x → x/d.erasesize*d.erasesize ∈ e.blocks := by
  have hpos := erasesize_pos d
  induction hlaid generalizing done flash with
  | done offset =>
    refine ⟨1, fun turns hturns => ?_⟩
    obtain ⟨turns, rfl⟩ := Nat.exists_eq_add_of_le' hturns
    have hzero : (0+d.erasesize-1)/d.erasesize = 0 := Nat.div_eq_of_lt (by omega)
    rw [eraseLoop, if_neg (by omega)]
    exact ⟨_, rfl, rfl, by simp⟩
  | skip offset left ps hleft hsize hbad _ ih =>
    obtain ⟨n, hn⟩ := ih done flash (next_dvd d offset) htotal
    refine ⟨n+1, fun turns hturns => ?_⟩
    obtain ⟨turns, rfl⟩ := Nat.exists_eq_add_of_le' (show 1 ≤ turns by omega)
    have hmore : 0 < (left+d.erasesize-1)/d.erasesize := Nat.div_pos (by omega) hpos
    have hisbad : nandBlockIsbad d chip offset = 1 := by
      rw [isbad_inside d chip offset (by omega), hbad]
      rfl
    rw [eraseLoop, if_pos (by omega), hisbad, if_pos (by decide), if_pos rfl,
      ← next_of_dvd d offset hdvd]
    exact hn turns (by omega)
  | piece offset left w ps hleft hsize hgood hw hps ih =>
    have hstep : (left+d.erasesize-1)/d.erasesize =
        (left-w+d.erasesize-1)/d.erasesize+1 := by
      have hnext := next_of_dvd d offset hdvd
      by_cases hlast : left ≤ d.erasesize
      · rw [show left-w+d.erasesize-1 = d.erasesize-1 by omega,
          Nat.div_eq_of_lt (show d.erasesize-1 < d.erasesize by omega)]
        exact Nat.div_eq_of_lt_le (by omega) (by omega)
      · rw [show left+d.erasesize-1 = left-w+d.erasesize-1+d.erasesize by omega,
          Nat.add_div_right _ hpos]
    have hisgood : nandBlockIsbad d chip offset = 0 := by
      rw [isbad_inside d chip offset (by omega), hgood]
      rfl
    obtain ⟨n, hn⟩ := ih (done+1)
      (if chip.eraseFails offset then flash
        else store flash offset (List.replicate d.erasesize 255)) (next_dvd d offset) (by omega)
    refine ⟨n+1, fun turns hturns => ?_⟩
    obtain ⟨turns, rfl⟩ := Nat.exists_eq_add_of_le' (show 1 ≤ turns by omega)
    obtain ⟨e, he, hzero, hblocks⟩ := hn turns (by omega)
    have hmore : done < total := by
      rw [htotal, hstep]
      exact Nat.lt_add_of_pos_right (Nat.succ_pos _)
    rw [eraseLoop, if_pos hmore, hisgood, if_neg (by decide), if_neg (by decide),
      ← next_of_dvd d offset hdvd]
    dsimp only
    rw [he]
    refine ⟨_, rfl, hzero, ?_⟩
    intro p hp x hx
    rcases List.mem_cons.mp hp with rfl | hp
    · have hlt := offset_lt_next d offset
      have hx2 : x < offset+w := hx.2
      have hblock := div_of_piece d offset x hx.1 (by omega)
      rw [hblock, Nat.div_mul_cancel hdvd]
      exact List.mem_cons_self
    · exact List.mem_cons_of_mem _ (hblocks p hp x hx)

end UBoot.NandUtil
