import UBoot.NandSkipBad
import Mathlib.Data.Nat.Count

/-!
# What an erase reports: `nand_erase_opts`

The loop counts blocks and goes on after an erase that has failed; only a lookup
behind the end of the device stops it with an error. A cleanmarker that cannot be
written is passed over like an erase that fails. What the erase tells about the
progress is left out.
-/

set_option autoImplicit false

namespace UBoot.NandErase
open UBoot.ByteStore UBoot.NandUtil

/-- `nand_erase_options_t` without `quiet`. -/
structure EraseOptions where
  length : ℕ
  offset : ℕ
  jffs2 : Bool
  scrub : Bool
  spread : Bool

/-- `erase` of the device for one block. -/
def nandErase (d : Nand) (chip : Chip) (addr : ℕ) : ℤ :=
  if addr+d.erasesize > d.size then einval else if chip.eraseFails addr then eio else 0

/-- The result, with each erase and its status, and the blocks that a cleanmarker is written to. -/
structure Outcome where
  rval : ℤ
  flash : Memory
  erases : List (ℕ × ℤ)
  markers : List ℕ

def eraseLoop (d : Nand) (chip : Chip) (oobavail : ℕ) (opts : EraseOptions) (eraseLength : ℕ) :
    ℕ → ℕ → ℕ → Memory → Option Outcome
  | 0, _, _, _ => none
  | turns+1, addr, erasedLength, flash =>
    if erasedLength < eraseLength then
      let ret := nandBlockIsbad d chip addr
      if opts.scrub = false ∧ ret > 0 then
        eraseLoop d chip oobavail opts eraseLength turns (addr+d.erasesize)
          (if opts.spread then erasedLength else erasedLength+1) flash
      else if opts.scrub = false ∧ ret < 0 then some ⟨-1, flash, [], []⟩
      else
        let result := nandErase d chip addr
        let flash :=
          if result = 0 then store flash addr (List.replicate d.erasesize 255) else flash
        (eraseLoop d chip oobavail opts eraseLength turns (addr+d.erasesize) (erasedLength+1)
            flash).map fun r =>
          { r with
            erases := (addr, result) :: r.erases
            markers :=
              if result = 0 ∧ opts.jffs2 ∧ 8 ≤ oobavail then addr :: r.markers else r.markers }
    else some ⟨0, flash, [], []⟩

/-- A turn counts a block or comes nearer to the end of the device, so that the turns are
enough. -/
def nandEraseOpts (d : Nand) (chip : Chip) (oobavail : ℕ) (opts : EraseOptions) (flash : Memory) :
    Option Outcome :=
  if opts.offset % d.erasesize ≠ 0 then some ⟨-1, flash, [], []⟩
  else
    let eraseLength := (opts.length+d.erasesize-1)/d.erasesize % 2^32
    eraseLoop d chip oobavail opts eraseLength (eraseLength+d.blocks+2) opts.offset 0 flash

/-- The chip whose erases fail outside of the device too. -/
def bounded (d : Nand) (chip : Chip) : Chip :=
  { chip with eraseFails := fun addr => decide (addr+d.erasesize > d.size) || chip.eraseFails addr }

/-- The loop without the cleanmarkers is the one that writes and reads are checked against. -/
theorem eraseLoop_util (d : Nand) (chip : Chip) (oobavail : ℕ) (opts : EraseOptions)
    (eraseLength turns addr erasedLength : ℕ) (flash : Memory) :
    (eraseLoop d chip oobavail opts eraseLength turns addr erasedLength flash).map
        (fun r => NandUtil.Erased.mk r.rval r.flash (r.erases.map Prod.fst)) =
      NandUtil.eraseLoop d (bounded d chip) opts.spread opts.scrub eraseLength turns addr
        erasedLength flash := by
  have hisbad : nandBlockIsbad d (bounded d chip) = nandBlockIsbad d chip := rfl
  have hfails : ∀ addr, (bounded d chip).eraseFails addr = true ↔ nandErase d chip addr ≠ 0 := by
    intro addr
    unfold bounded nandErase
    dsimp only
    by_cases hout : addr+d.erasesize > d.size
    · rw [if_pos hout]
      simp [hout, einval]
    · rw [if_neg hout, decide_eq_false hout, Bool.false_or]
      cases chip.eraseFails addr with
      | false => simp
      | true => simp [eio]
  induction turns generalizing addr erasedLength flash with
  | zero => rfl
  | succ turns ih =>
    rw [eraseLoop, NandUtil.eraseLoop]
    dsimp only
    rw [hisbad]
    by_cases hmore : erasedLength < eraseLength
    · rw [if_pos hmore, if_pos hmore]
      by_cases hskip : opts.scrub = false ∧ nandBlockIsbad d chip addr > 0
      · rw [if_pos hskip, if_pos hskip]
        exact ih _ _ _
      rw [if_neg hskip, if_neg hskip]
      by_cases hstop : opts.scrub = false ∧ nandBlockIsbad d chip addr < 0
      · rw [if_pos hstop, if_pos hstop]
        rfl
      rw [if_neg hstop, if_neg hstop]
      have hflash : (if nandErase d chip addr = 0 then
            store flash addr (List.replicate d.erasesize 255) else flash) =
          if (bounded d chip).eraseFails addr then flash
            else store flash addr (List.replicate d.erasesize 255) := by
        by_cases hok : nandErase d chip addr = 0
        · rw [if_pos hok, if_neg (fun h => (hfails addr).mp h hok)]
        · rw [if_neg hok, if_pos ((hfails addr).mpr hok)]
      rw [hflash, Option.map_map, ← ih, Option.map_map]
      rfl
    · rw [if_neg hmore, if_neg hmore]
      rfl

section Loop
variable (d : Nand) (chip : Chip) (oobavail : ℕ) (opts : EraseOptions)

/-- The loop counts the block `b`. -/
def Counts (b : ℕ) : Prop := opts.scrub = true ∨ opts.spread = false ∨ chip.bad b = false

instance (b : ℕ) : Decidable (Counts chip opts b) := by
  unfold Counts
  infer_instance

/-- The blocks that are counted among the first `n` from `start` on. -/
def counted (start n : ℕ) : ℕ := Nat.count (fun i => Counts chip opts (start+i)) n

/-- What is known of the rest of a run that is at the block `start+i`. -/
structure Rest (eraseLength start i : ℕ) (r : Outcome) : Prop where
  tried : ∀ e ∈ r.erases, ∃ j, i ≤ j ∧
    e = ((start+j)*d.erasesize, nandErase d chip ((start+j)*d.erasesize)) ∧
    counted chip opts start j < eraseLength ∧ (opts.scrub = false → chip.bad (start+j) = false)
  done : r.rval = 0 → ∀ j, i ≤ j → counted chip opts start j < eraseLength →
    (opts.scrub = false → start+j ≤ d.blocks) ∧
    (opts.scrub = true ∨ chip.bad (start+j) = false →
      ((start+j)*d.erasesize, nandErase d chip ((start+j)*d.erasesize)) ∈ r.erases)
  stopped : r.rval ≠ 0 → opts.scrub = false ∧
    ∃ j, i ≤ j ∧ counted chip opts start j < eraseLength ∧ d.blocks < start+j

theorem counted_succ (start i : ℕ) : counted chip opts start (i+1) =
    counted chip opts start i+if Counts chip opts (start+i) then 1 else 0 := Nat.count_succ ..

theorem isbad_block (b : ℕ) : nandBlockIsbad d chip (b*d.erasesize) =
    if d.blocks < b then einval else if chip.bad b then 1 else 0 := by
  have hpos := erasesize_pos d
  rw [nandBlockIsbad, Nat.mul_div_cancel _ hpos, Nand.size]
  by_cases h : d.blocks < b
  · rw [if_pos h, if_pos (Nat.mul_lt_mul_of_pos_right h hpos)]
  · rw [if_neg h, if_neg (not_lt.mpr (Nat.mul_le_mul_right _ (not_lt.mp h)))]

variable {d chip opts} {eraseLength start i : ℕ} {r : Outcome}

/-- A bad block is passed over. -/
theorem Rest.skip (h : Rest d chip opts eraseLength start (i+1) r) (hscrub : opts.scrub = false)
    (hinside : start+i ≤ d.blocks) (hbad : chip.bad (start+i) = true) :
    Rest d chip opts eraseLength start i r := by
  refine ⟨?_, ?_, ?_⟩
  · intro e he
    obtain ⟨j, hj, h⟩ := h.tried e he
    exact ⟨j, by omega, h⟩
  · intro hok j hj hlt
    by_cases hji : j = i
    · subst hji
      refine ⟨fun _ => hinside, ?_⟩
      rintro (h | h)
      · rw [hscrub] at h
        cases h
      · rw [hbad] at h
        cases h
    · exact h.done hok j (by omega) hlt
  · intro hfail
    obtain ⟨hs, j, hj, h⟩ := h.stopped hfail
    exact ⟨hs, j, by omega, h⟩

/-- A block that is not known to be bad is tried. -/
theorem Rest.step (h : Rest d chip opts eraseLength start (i+1) r) (markers : List ℕ)
    (hmore : counted chip opts start i < eraseLength)
    (hgood : opts.scrub = false → start+i ≤ d.blocks ∧ chip.bad (start+i) = false) :
    Rest d chip opts eraseLength start i { r with
      erases := ((start+i)*d.erasesize, nandErase d chip ((start+i)*d.erasesize)) :: r.erases
      markers := markers } := by
  refine ⟨?_, ?_, ?_⟩
  · intro e he
    rcases List.mem_cons.mp he with rfl | he
    · exact ⟨i, le_rfl, rfl, hmore, fun hs => (hgood hs).2⟩
    · obtain ⟨j, hj, h⟩ := h.tried e he
      exact ⟨j, by omega, h⟩
  · intro hok j hj hlt
    by_cases hji : j = i
    · subst hji
      exact ⟨fun hs => (hgood hs).1, fun _ => List.mem_cons_self⟩
    · obtain ⟨hinside, hmem⟩ := h.done hok j (by omega) hlt
      exact ⟨hinside, fun hj => List.mem_cons_of_mem _ (hmem hj)⟩
  · intro hfail
    obtain ⟨hs, j, hj, h⟩ := h.stopped hfail
    exact ⟨hs, j, by omega, h⟩

variable (d chip opts)

/-- The run comes to an end, and tries the blocks that it should. -/
theorem eraseLoop_rest (eraseLength start i turns : ℕ) (flash : Memory)
    (hturns : eraseLength-counted chip opts start i+(d.blocks+1-(start+i)) < turns) :
    ∃ r, eraseLoop d chip oobavail opts eraseLength turns ((start+i)*d.erasesize)
      (counted chip opts start i) flash = some r ∧ Rest d chip opts eraseLength start i r := by
  induction turns generalizing i flash with
  | zero => omega
  | succ turns ih =>
    have hmono : ∀ j, i ≤ j → counted chip opts start i ≤ counted chip opts start j :=
      fun j hj => Nat.count_monotone _ hj
    have hsucc := counted_succ chip opts start i
    have haddr : (start+i)*d.erasesize+d.erasesize = (start+(i+1))*d.erasesize :=
      (Nat.succ_mul _ _).symm
    rw [eraseLoop]
    by_cases hmore : counted chip opts start i < eraseLength
    · rw [if_pos hmore, isbad_block]
      dsimp only
      by_cases hskip : opts.scrub = false ∧ start+i ≤ d.blocks ∧ chip.bad (start+i) = true
      · obtain ⟨hscrub, hinside, hbad⟩ := hskip
        have hcount : counted chip opts start (i+1) =
            if opts.spread then counted chip opts start i else counted chip opts start i+1 := by
          rw [hsucc]
          cases hspread : opts.spread <;> simp [Counts, hscrub, hspread, hbad]
        obtain ⟨r, hr, hrest⟩ := ih (i+1) flash (by split_ifs at hcount <;> omega)
        rw [if_neg (not_lt.mpr hinside), hbad, if_pos rfl, if_pos ⟨hscrub, by decide⟩, haddr, ← hcount]
        exact ⟨r, hr, hrest.skip hscrub hinside hbad⟩
      by_cases hstop : opts.scrub = false ∧ d.blocks < start+i
      · rw [if_pos hstop.2, if_neg (fun h => absurd h.2 (by decide)), if_pos ⟨hstop.1, by decide⟩]
        refine ⟨_, rfl, ?_, ?_, fun _ => ⟨hstop.1, i, le_rfl, hmore, hstop.2⟩⟩
        · intro e he
          cases he
        · intro h
          exact absurd h (show ¬((-1 : ℤ) = 0) by decide)
      · have hgood : opts.scrub = false → start+i ≤ d.blocks ∧ chip.bad (start+i) = false := by
          intro hs
          have hinside : start+i ≤ d.blocks := by
            by_contra hout
            exact hstop ⟨hs, by omega⟩
          refine ⟨hinside, ?_⟩
          by_contra hbad
          exact hskip ⟨hs, hinside, by simpa using hbad⟩
        have hcount : counted chip opts start (i+1) = counted chip opts start i+1 := by
          rw [hsucc, if_pos]
          cases hs : opts.scrub with
          | true => exact Or.inl hs
          | false => exact Or.inr (Or.inr (hgood hs).2)
        have hzero : opts.scrub = false →
            (if d.blocks < start+i then einval else if chip.bad (start+i) then 1 else 0) = 0 := by
          intro hs
          rw [if_neg (not_lt.mpr (hgood hs).1), (hgood hs).2]
          rfl
        rw [if_neg (fun h => absurd (hzero h.1) (by omega)),
          if_neg (fun h => absurd (hzero h.1) (by omega)), haddr, ← hcount]
        obtain ⟨r, hr, hrest⟩ := ih (i+1)
          (if nandErase d chip ((start+i)*d.erasesize) = 0 then
            store flash ((start+i)*d.erasesize) (List.replicate d.erasesize 255) else flash) (by omega)
        rw [hr]
        exact ⟨_, rfl, hrest.step _ hmore hgood⟩
    · rw [if_neg hmore]
      refine ⟨_, rfl, ?_, ?_, ?_⟩
      · intro e he
        cases he
      · intro _ j hj hlt
        exact absurd (lt_of_le_of_lt (hmono j hj) hlt) hmore
      · intro h
        exact absurd rfl h

/-! ## What the options ask for -/

/-- The number of blocks, rounded up. -/
def wanted (d : Nand) (opts : EraseOptions) : ℕ := (opts.length+d.erasesize-1)/d.erasesize

def firstBlock (d : Nand) (opts : EraseOptions) : ℕ := opts.offset/d.erasesize

/-- A good block that is to be erased: it comes before so many blocks have been counted, with the
bad ones unless the erase is spread. -/
def Asked (b : ℕ) : Prop :=
  chip.bad b = false ∧ b < d.blocks ∧ firstBlock d opts ≤ b ∧
    (if opts.spread then
      Nat.count (fun i => chip.bad (firstBlock d opts+i) = false) (b-firstBlock d opts)
    else b-firstBlock d opts) < wanted d opts

/-- Success means that each block that was asked for has been erased, and a bad block is erased by
a scrub only. -/
def Reports : Prop :=
  ∀ flash, ∃ r, nandEraseOpts d chip oobavail opts flash = some r ∧
    (r.rval = 0 → ∀ b, Asked d chip opts b → (b*d.erasesize, 0) ∈ r.erases) ∧
    (opts.scrub = false → ∀ e ∈ r.erases, chip.bad (e.1/d.erasesize) = false)

/-- A lookup behind the end of the device comes before all blocks are counted. -/
def RunsOut : Prop :=
  opts.scrub = false ∧ ∃ i, d.blocks < firstBlock d opts+i ∧
    counted chip opts (firstBlock d opts) i < wanted d opts % 2^32

/-- No erase of a block that is asked for fails, and the loop counts up to all of them. -/
def AllErased : Prop :=
  ∀ b, Asked d chip opts b → chip.eraseFails (b*d.erasesize) = false ∧
    counted chip opts (firstBlock d opts) (b-firstBlock d opts) < wanted d opts % 2^32

theorem nandErase_inside (b : ℕ) (hb : b < d.blocks) :
    nandErase d chip (b*d.erasesize) = if chip.eraseFails (b*d.erasesize) then eio else 0 := by
  have hend : (b+1)*d.erasesize ≤ d.size := Nat.mul_le_mul_right _ hb
  rw [Nat.succ_mul] at hend
  rw [nandErase, if_neg (not_lt.mpr hend)]

/-- An aligned erase ends, and its run is the one that the loop should make. -/
theorem nandEraseOpts_rest (flash : Memory) (h : opts.offset % d.erasesize = 0) :
    ∃ r, nandEraseOpts d chip oobavail opts flash = some r ∧
      Rest d chip opts (wanted d opts % 2^32) (firstBlock d opts) 0 r := by
  have hoffset : opts.offset = (firstBlock d opts+0)*d.erasesize :=
    (Nat.div_mul_cancel (Nat.dvd_of_mod_eq_zero h)).symm
  obtain ⟨r, hr, hrest⟩ := eraseLoop_rest d chip oobavail opts (wanted d opts % 2^32)
    (firstBlock d opts) 0 (wanted d opts % 2^32+d.blocks+2) flash (by omega)
  refine ⟨r, ?_, hrest⟩
  rw [nandEraseOpts, if_neg (not_not.mpr h), ← hr, ← hoffset]
  rfl

theorem reports_of (h : opts.offset % d.erasesize ≠ 0 ∨ RunsOut d chip opts ∨ AllErased d chip opts) :
    Reports d chip oobavail opts := by
  intro flash
  by_cases haligned : opts.offset % d.erasesize = 0
  · obtain ⟨r, hr, hrest⟩ := nandEraseOpts_rest d chip oobavail opts flash haligned
    refine ⟨r, hr, ?_, ?_⟩
    · intro hok b hb
      obtain ⟨hgood, hinside, hfirst, -⟩ := id hb
      have hplace : firstBlock d opts+(b-firstBlock d opts) = b := by omega
      rcases h with h | ⟨hscrub, i, hout, hi⟩ | h
      · exact absurd haligned h
      · have hin := (hrest.done hok i (Nat.zero_le _) hi).1 hscrub
        omega
      · obtain ⟨hfails, hcount⟩ := h b hb
        have hmem := (hrest.done hok _ (Nat.zero_le _) hcount).2
        rw [hplace, nandErase_inside d chip b hinside, hfails] at hmem
        exact hmem (Or.inr hgood)
    · intro hscrub e he
      obtain ⟨j, -, rfl, -, hgood⟩ := hrest.tried e he
      rw [Nat.mul_div_cancel _ (erasesize_pos d)]
      exact hgood hscrub
  · refine ⟨⟨-1, flash, [], []⟩, ?_, 
      fun hok => absurd hok (show ¬((-1 : ℤ) = 0) by decide), fun _ e he => by cases he⟩
    rw [nandEraseOpts, if_pos haligned]

theorem of_reports (h : Reports d chip oobavail opts) :
    opts.offset % d.erasesize ≠ 0 ∨ RunsOut d chip opts ∨ AllErased d chip opts := by
  by_cases haligned : opts.offset % d.erasesize = 0
  · right
    obtain ⟨r, hr, hrest⟩ := nandEraseOpts_rest d chip oobavail opts (fun _ => 0) haligned
    obtain ⟨r', hr', herased, -⟩ := h (fun _ => 0)
    rw [hr] at hr'
    obtain rfl := Option.some.inj hr'
    by_cases hok : r.rval = 0
    · right
      intro b hb
      obtain ⟨j, -, heq, hcount, -⟩ := hrest.tried _ (herased hok b hb)
      rw [Prod.mk.injEq] at heq
      have hj : b = firstBlock d opts+j := Nat.eq_of_mul_eq_mul_right (erasesize_pos d) heq.1
      have hzero := heq.2
      rw [← hj, nandErase_inside d chip b hb.2.1] at hzero
      refine ⟨?_, ?_⟩
      · by_contra hfails
        rw [Bool.not_eq_false] at hfails
        rw [hfails, if_pos rfl] at hzero
        exact absurd hzero (by decide)
      · rwa [show b-firstBlock d opts = j by omega]
    · left
      obtain ⟨hscrub, i, -, hi, hout⟩ := hrest.stopped hok
      exact ⟨hscrub, i, hout, hi⟩
  · exact Or.inl haligned

/-- Success can be taken for an erased area exactly where no erase fails that matters, or where
there is no success. -/
theorem reports_iff : Reports d chip oobavail opts ↔
    opts.offset % d.erasesize ≠ 0 ∨ RunsOut d chip opts ∨ AllErased d chip opts :=
  ⟨of_reports d chip oobavail opts, reports_of d chip oobavail opts⟩

end Loop

/-- A device of one block that cannot be erased. -/
def worn : Chip := ⟨fun _ => false, fun _ _ _ => none, fun _ _ => 0, fun _ => true⟩

/-- The erase of the only block fails, and the result is 0. -/
theorem failed_erase_reported :
    ¬Reports ⟨0, 0, 1, by decide, by decide⟩ worn 0 ⟨1, 0, false, false, false⟩ := by
  intro h
  obtain ⟨r, hr, herased, -⟩ := h fun _ => 0
  have hrun : nandEraseOpts ⟨0, 0, 1, by decide, by decide⟩ worn 0 ⟨1, 0, false, false, false⟩
      (fun _ => 0) = some ⟨0, fun _ => 0, [(0, eio)], []⟩ := rfl
  rw [hrun] at hr
  obtain rfl := Option.some.inj hr
  have hmem := herased rfl 0 ⟨rfl, by decide, by decide, by decide⟩
  exact absurd hmem (by decide)

end UBoot.NandErase
