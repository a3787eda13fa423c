import UBoot.BlockMap
import UBoot.EnvNandRuns

/-!
# Which blocks the NAND environment uses

`writeenv` and `readenv` go through the good blocks from `CONFIG_ENV_OFFSET` on until they have
the environment. The blocks used are those with too few good blocks in front of them. They are
in the range of the given offset as long as that is the first offset, or everything in front of
it is bad.
-/

set_option autoImplicit false

namespace UBoot.EnvNand
open UBoot.PowerCut

variable (cfg : Config) (bad : ℕ → Bool)

/-- The value that `readenv` returns, `true` for 0. -/
def readenvRet (offset : ℕ) : Bool := (loopBlocks cfg bad offset).2 == cfg.envSize

/-- The good blocks among the first `n` from an offset on. -/
def goodCount (offset n : ℕ) : ℕ := Nat.count (fun k => bad (offset+k*cfg.erasesize) = false) n

theorem goodCount_succ (offset n : ℕ) : goodCount cfg bad offset (n+1) =
    goodCount cfg bad (offset+cfg.erasesize) n + (if bad offset = false then 1 else 0) :=
  BlockMap.count_blocks (fun b => bad b = false) offset cfg.erasesize n

theorem block_succ (offset k : ℕ) :
    offset+cfg.erasesize+k*cfg.erasesize = offset+(k+1)*cfg.erasesize := by
  rw [Nat.add_mul, Nat.one_mul]
  omega

/-! ## The loop -/

/-- The blocks in the loop: good ones in front of the end with room in front of them. -/
theorem loop_mem (stop fuel offset amount : ℕ) (hf : stop ≤ offset+fuel) (b : ℕ) :
    b ∈ (envBlocks cfg bad stop fuel offset amount).1 ↔ ∃ k, b = offset+k*cfg.erasesize ∧
      b < stop ∧ bad b = false ∧ amount+goodCount cfg bad offset k*cfg.len < cfg.envSize := by
  have hpos := cfg.erasesize_pos
  induction fuel generalizing offset amount with
  | zero =>
    simp only [envBlocks, List.not_mem_nil, false_iff]
    rintro ⟨k, rfl, hlt, -⟩
    omega
  | succ fuel ih =>
    rw [envBlocks]
    by_cases hc : amount < cfg.envSize ∧ offset < stop
    · rw [if_pos hc]
      cases hb : bad offset with
      | true =>
        have hnext := ih (offset+cfg.erasesize) amount (by omega)
        rw [if_pos rfl]
        apply hnext.trans
        constructor
        · rintro ⟨k, rfl, hlt, hgood, hroom⟩
          refine ⟨k+1, block_succ cfg offset k, hlt, hgood, ?_⟩
          rwa [goodCount_succ, hb, if_neg (by decide), Nat.add_zero]
        · rintro ⟨k, rfl, hlt, hgood, hroom⟩
          cases k with
          | zero =>
            rw [Nat.zero_mul, Nat.add_zero, hb] at hgood
            cases hgood
          | succ k =>
            rw [goodCount_succ, hb, if_neg (by decide), Nat.add_zero] at hroom
            exact ⟨k, (block_succ cfg offset k).symm, hlt, hgood, hroom⟩
      | false =>
        have hnext := ih (offset+cfg.erasesize) (amount+cfg.len) (by omega)
        rw [if_neg Bool.false_ne_true]
        apply List.mem_cons.trans
        apply (or_congr_right hnext).trans
        constructor
        · rintro (rfl | ⟨k, rfl, hlt, hgood, hroom⟩)
          · exact ⟨0, by simp, hc.2, hb, by simpa [goodCount] using hc.1⟩
          · refine ⟨k+1, block_succ cfg offset k, hlt, hgood, ?_⟩
            rw [goodCount_succ, hb, if_pos rfl, Nat.add_mul, Nat.one_mul]
            omega
        · rintro ⟨k, rfl, hlt, hgood, hroom⟩
          cases k with
          | zero => exact .inl (by simp)
          | succ k =>
            rw [goodCount_succ, hb, if_pos rfl, Nat.add_mul, Nat.one_mul] at hroom
            exact .inr ⟨k, (block_succ cfg offset k).symm, hlt, hgood, by omega⟩
    · rw [if_neg hc]
      simp only [List.not_mem_nil, false_iff]
      rintro ⟨k, rfl, hlt, -, hroom⟩
      omega

/-- The loop comes to the whole environment if the good blocks in front of the end hold it. -/
theorem loop_amount (stop fuel offset amount : ℕ) (hf : stop ≤ offset+fuel) :
    cfg.envSize ≤ (envBlocks cfg bad stop fuel offset amount).2 ↔
      ∃ n, (∀ k < n, offset+k*cfg.erasesize < stop) ∧
        cfg.envSize ≤ amount+goodCount cfg bad offset n*cfg.len := by
  have hpos := cfg.erasesize_pos
  induction fuel generalizing offset amount with
  | zero =>
    simp only [envBlocks]
    constructor
    · exact fun h => ⟨0, fun _ hk => absurd hk (Nat.not_lt_zero _), by omega⟩
    · rintro ⟨n, hlt, hroom⟩
      cases n with
      | zero => simpa [goodCount] using hroom
      | succ n =>
        have h0 := hlt 0 (Nat.succ_pos n)
        omega
  | succ fuel ih =>
    have hnone : ¬ (amount < cfg.envSize ∧ offset < stop) → ∀ n,
        (∀ k < n, offset+k*cfg.erasesize < stop) →
        cfg.envSize ≤ amount+goodCount cfg bad offset n*cfg.len → cfg.envSize ≤ amount := by
      intro hc n hlt hroom
      cases n with
      | zero => simpa [goodCount] using hroom
      | succ n =>
        have h0 := hlt 0 (Nat.succ_pos n)
        omega
    have hback : ∀ n, (∀ k < n+1, offset+k*cfg.erasesize < stop) →
        ∀ k < n, offset+cfg.erasesize+k*cfg.erasesize < stop := by
      intro n hlt k hk
      rw [block_succ]
      exact hlt (k+1) (by omega)
    have hforth : offset < stop → ∀ n,
        (∀ k < n, offset+cfg.erasesize+k*cfg.erasesize < stop) →
        ∀ k < n+1, offset+k*cfg.erasesize < stop := by
      intro h0 n hlt k hk
      cases k with
      | zero => omega
      | succ k =>
        rw [← block_succ]
        exact hlt k (by omega)
    rw [envBlocks]
    by_cases hc : amount < cfg.envSize ∧ offset < stop
    · rw [if_pos hc]
      cases hb : bad offset with
      | true =>
        have hnext := ih (offset+cfg.erasesize) amount (by omega)
        rw [if_pos rfl]
        apply hnext.trans
        constructor
        · rintro ⟨n, hlt, hroom⟩
          refine ⟨n+1, hforth hc.2 n hlt, ?_⟩
          rwa [goodCount_succ, hb, if_neg (by decide), Nat.add_zero]
        · rintro ⟨n, hlt, hroom⟩
          cases n with
          | zero =>
            rw [goodCount, Nat.count_zero] at hroom
            omega
          | succ n =>
            rw [goodCount_succ, hb, if_neg (by decide), Nat.add_zero] at hroom
            exact ⟨n, hback n hlt, hroom⟩
      | false =>
        rw [if_neg Bool.false_ne_true]
        dsimp only
        have hnext := ih (offset+cfg.erasesize) (amount+cfg.len) (by omega)
        apply hnext.trans
        constructor
        · rintro ⟨n, hlt, hroom⟩
          refine ⟨n+1, hforth hc.2 n hlt, ?_⟩
          rw [goodCount_succ, hb, if_pos rfl, Nat.add_mul, Nat.one_mul]
          omega
        · rintro ⟨n, hlt, hroom⟩
          cases n with
          | zero =>
            rw [goodCount, Nat.count_zero] at hroom
            omega
          | succ n =>
            rw [goodCount_succ, hb, if_pos rfl, Nat.add_mul, Nat.one_mul] at hroom
            exact ⟨n, hback n hlt, by omega⟩
    · rw [if_neg hc]
      constructor
      · exact fun h => ⟨0, fun _ hk => absurd hk (Nat.not_lt_zero _), by simpa [goodCount] using h⟩
      · rintro ⟨n, hlt, hroom⟩
        exact hnone hc n hlt hroom

/-- An environment that is a multiple of what a block takes is not overrun. -/
theorem loop_le (stop fuel offset amount : ℕ) (ha : amount ≤ cfg.envSize)
    (hd : cfg.len ∣ cfg.envSize-amount) :
    (envBlocks cfg bad stop fuel offset amount).2 ≤ cfg.envSize := by
  induction fuel generalizing offset amount with
  | zero => exact ha
  | succ fuel ih =>
    rw [envBlocks]
    by_cases hc : amount < cfg.envSize ∧ offset < stop
    · rw [if_pos hc]
      by_cases hb : bad offset = true
      · rw [if_pos hb]
        exact ih _ amount ha hd
      · rw [if_neg hb]
        have hle := Nat.le_of_dvd (by omega) hd
        apply ih _ (amount+cfg.len) (by omega)
        have hstep := Nat.dvd_sub hd dvd_rfl
        rwa [Nat.sub_sub] at hstep
    · rw [if_neg hc]
      exact ha

/-- Blocks in front are passed over as long as they are bad. -/
theorem loop_skips (stop fuel offset n : ℕ) (hs : 0 < cfg.envSize)
    (hbad : ∀ k < n, bad (offset+k*cfg.erasesize) = true)
    (hlt : ∀ k < n, offset+k*cfg.erasesize < stop) :
    envBlocks cfg bad stop (fuel+n) offset 0 =
      envBlocks cfg bad stop fuel (offset+n*cfg.erasesize) 0 := by
  induction n generalizing offset with
  | zero => simp
  | succ n ih =>
    have hb := hbad 0 (Nat.succ_pos n)
    have h0 := hlt 0 (Nat.succ_pos n)
    rw [Nat.zero_mul, Nat.add_zero] at hb h0
    rw [← Nat.add_assoc, envBlocks, if_pos ⟨hs, h0⟩, if_pos hb,
      ih (offset+cfg.erasesize) (fun k hk => ?_) (fun k hk => ?_), block_succ]
    · rw [block_succ]
      exact hbad (k+1) (by omega)
    · rw [block_succ]
      exact hlt (k+1) (by omega)

/-! ## The range of an offset -/

/-- All blocks between `CONFIG_ENV_OFFSET` and an offset are bad. -/
def FrontBad (offset : ℕ) : Prop :=
  ∀ k, cfg.envOffset+k*cfg.erasesize < offset → bad (cfg.envOffset+k*cfg.erasesize) = true

/-- The range has enough good blocks: its first `n` blocks are in the range as far as they are
used, and the good ones among them hold the environment. -/
def Enough (offset : ℕ) : Prop := ∃ n, (∀ k < n, k*cfg.erasesize+cfg.len ≤ cfg.envRange) ∧
  cfg.envSize ≤ goodCount cfg bad offset n*cfg.len

/-- No good block that is still needed reaches over the end of the range. -/
def Fits (offset : ℕ) : Prop := ∀ k, k*cfg.erasesize < cfg.envRange →
  cfg.envRange < k*cfg.erasesize+cfg.len → bad (offset+k*cfg.erasesize) = false →
  cfg.envSize ≤ goodCount cfg bad offset k*cfg.len

/-- What is read and written is in the range of the offset. -/
def StaysInside (offset : ℕ) : Prop := ∀ b ∈ (loopBlocks cfg bad offset).1, ∀ j < cfg.len,
  offset ≤ b+j ∧ b+j < offset+cfg.envRange

section Range

variable (offset : ℕ) (hs : 0 < cfg.envSize)
  (ho : offset = cfg.envOffset ∨ offset = cfg.envOffsetRedund)

include ho in
theorem blocks_front : ∃ n, offset = cfg.envOffset+n*cfg.erasesize := by
  rcases ho with rfl | rfl
  · exact ⟨0, by simp⟩
  · have hapart := cfg.apart
    obtain ⟨n, hn⟩ := Nat.dvd_sub cfg.alignedRedund cfg.aligned
    refine ⟨n, ?_⟩
    rw [Nat.mul_comm n, ← hn]
    omega

include ho in
theorem erasesize_dvd : cfg.erasesize ∣ offset := by
  rcases ho with rfl | rfl
  · exact cfg.aligned
  · exact cfg.alignedRedund

include hs ho in
/-- With bad blocks only in front of the offset the loops begin at the offset. -/
theorem loopBlocks_front (h : FrontBad cfg bad offset) : ∃ fuel,
    offset+cfg.envRange ≤ offset+fuel ∧
    loopBlocks cfg bad offset = envBlocks cfg bad (offset+cfg.envRange) fuel offset 0 := by
  obtain ⟨n, hn⟩ := blocks_front cfg offset ho
  have hpos := cfg.erasesize_pos
  have hlt : ∀ k < n, cfg.envOffset+k*cfg.erasesize < offset := by
    intro k hk
    have hmul := (Nat.mul_lt_mul_right hpos).mpr hk
    omega
  have hle : n ≤ n*cfg.erasesize := Nat.le_mul_of_pos_right n hpos
  refine ⟨offset+cfg.envRange-n, by omega, ?_⟩
  have hskip := loop_skips cfg bad (offset+cfg.envRange) (offset+cfg.envRange-n) cfg.envOffset n hs
    (fun k hk => h k (hlt k hk)) (fun k hk => Nat.lt_add_right _ (hlt k hk))
  rwa [Nat.sub_add_cancel (by omega), ← hn] at hskip

omit ho in
include hs in
/-- A good block in front of the offset is used. -/
theorem front_of_inside (h : StaysInside cfg bad offset) : FrontBad cfg bad offset := by
  intro k
  induction k using Nat.strong_induction_on with
  | _ k ih =>
    intro hlt
    by_contra hgood
    have hnone : goodCount cfg bad cfg.envOffset k = 0 := by
      apply Nat.count_iff_forall_not.mpr
      intro j hj hj'
      have hmul := Nat.mul_le_mul_right cfg.erasesize hj.le
      rw [ih j hj (by omega)] at hj'
      cases hj'
    have hused : cfg.envOffset+k*cfg.erasesize ∈ (loopBlocks cfg bad offset).1 := by
      unfold loopBlocks
      apply (loop_mem cfg bad _ _ _ _ (by omega) _).mpr
      refine ⟨k, rfl, by omega, by simpa using hgood, ?_⟩
      rw [hnone]
      omega
    have hlen : 0 < cfg.len := lt_min cfg.erasesize_pos hs
    have hin := h _ hused 0 hlen
    omega

include hs ho in
theorem inside_iff : StaysInside cfg bad offset ↔ FrontBad cfg bad offset ∧ Fits cfg bad offset := by
  constructor
  · intro h
    have hfront := front_of_inside cfg bad offset hs h
    refine ⟨hfront, ?_⟩
    intro k hlow hhigh hgood
    by_contra hroom
    obtain ⟨fuel, hf, hloop⟩ := loopBlocks_front cfg bad offset hs ho hfront
    have hused : offset+k*cfg.erasesize ∈ (loopBlocks cfg bad offset).1 := by
      rw [hloop]
      exact (loop_mem cfg bad _ _ _ _ hf _).mpr ⟨k, rfl, by omega, hgood, by omega⟩
    have hlen : 0 < cfg.len := lt_min cfg.erasesize_pos hs
    have hin := h _ hused (cfg.len-1) (by omega)
    omega
  · rintro ⟨hfront, hfits⟩ b hb j hj
    obtain ⟨fuel, hf, hloop⟩ := loopBlocks_front cfg bad offset hs ho hfront
    rw [hloop] at hb
    obtain ⟨k, rfl, hlt, hgood, hroom⟩ := (loop_mem cfg bad _ _ _ _ hf _).mp hb
    refine ⟨by omega, ?_⟩
    by_contra hover
    have hfull := hfits k (by omega) (by omega) hgood
    omega

/-! ## Saving and loading -/

theorem writeenv_true (buf : Image) :
    (writeenv cfg bad offset buf).2 = true ↔ (loopBlocks cfg bad offset).2 = cfg.envSize :=
  beq_iff_eq

include hs ho in
/-- With enough good blocks it is only the size that can make `writeenv` fail. -/
theorem success_iff (hfront : FrontBad cfg bad offset) :
    (Enough cfg bad offset → ∀ buf : Image, buf.length = cfg.envSize →
      (writeenv cfg bad offset buf).2 = true) ↔
    (cfg.len ∣ cfg.envSize ∨ ¬Enough cfg bad offset) := by
  obtain ⟨fuel, hf, hloop⟩ := loopBlocks_front cfg bad offset hs ho hfront
  constructor
  · intro h
    by_cases henough : Enough cfg bad offset
    · have hret := (writeenv_true cfg bad offset _).mp
        (h henough (List.replicate cfg.envSize 0) List.length_replicate)
      have hamount := (envBlocks_blocks cfg bad (offset+cfg.envRange) fuel offset 0
        (erasesize_dvd cfg offset ho)).2.2
      rw [← hloop, hret, Nat.zero_add] at hamount
      exact .inl (Dvd.intro_left _ hamount.symm)
    · exact .inr henough
  · rintro (hdvd | hnone) henough buf -
    · apply (writeenv_true cfg bad offset buf).mpr
      rw [hloop]
      obtain ⟨n, hin, hsize⟩ := henough
      have hlen : 0 < cfg.len := lt_min cfg.erasesize_pos hs
      apply le_antisymm
      · exact loop_le cfg bad _ _ _ 0 (Nat.zero_le _) hdvd
      · apply (loop_amount cfg bad _ fuel offset 0 hf).mpr
        refine ⟨n, ?_, by omega⟩
        intro k hk
        have hk' := hin k hk
        omega
    · exact absurd henough hnone

include hs ho in
/-- What was written to the erased range of the offset is read. -/
theorem read_back (hfront : FrontBad cfg bad offset) (mem : Memory) (buf0 buf : Image)
    (hl : buf.length = cfg.envSize) (hret : (writeenv cfg bad offset buf).2 = true) :
    readenv cfg bad (runAll Write.apply (writeenv cfg bad offset buf).1
      (eraseArea cfg bad offset mem)) offset buf0 = buf ∧ readenvRet cfg bad offset = true := by
  refine ⟨?_, hret⟩
  have hsize := (writeenv_true cfg bad offset buf).mp hret
  obtain ⟨fuel, -, hloop⟩ := loopBlocks_front cfg bad offset hs ho hfront
  have hdvd := erasesize_dvd cfg offset ho
  obtain ⟨hblocks, hpair, hamount⟩ :=
    envBlocks_blocks cfg bad (offset+cfg.envRange) fuel offset 0 hdvd
  rw [← hloop] at hblocks hpair hamount
  rw [hsize, Nat.zero_add] at hamount
  have hread : readBlocks cfg (runAll Write.apply (writeenv cfg bad offset buf).1
      (eraseArea cfg bad offset mem)) (loopBlocks cfg bad offset).1 = buf := by
    unfold writeenv
    rw [read_write cfg _ _ _ hpair (by rw [hl, hamount]),
      readBlocks_erased cfg bad offset hdvd mem _ hblocks, ← hamount, ← hl]
    exact erased_and buf
  unfold readenv
  simp only [hread]
  rw [List.take_append_of_le_length hl.ge, List.take_of_length_le hl.le]

end Range

/-- `writeenv` and `readenv` do right by an offset: a saved environment is loaded, enough good
blocks are enough, and they stay in the range of the offset. -/
structure SkipsRight (offset : ℕ) : Prop where
  back : ∀ (mem : Memory) (buf0 buf : Image), buf.length = cfg.envSize →
    (writeenv cfg bad offset buf).2 = true →
    readenv cfg bad (runAll Write.apply (writeenv cfg bad offset buf).1
      (eraseArea cfg bad offset mem)) offset buf0 = buf ∧ readenvRet cfg bad offset = true
  succeeds : Enough cfg bad offset → ∀ buf : Image, buf.length = cfg.envSize →
    (writeenv cfg bad offset buf).2 = true
  inside : StaysInside cfg bad offset

/-- They do if there are bad blocks only in front of the offset, the range does not end in a good
block that is needed, and the environment is at most a block or a multiple of blocks. -/
theorem skipsRight_iff (offset : ℕ) (hs : 0 < cfg.envSize)
    (ho : offset = cfg.envOffset ∨ offset = cfg.envOffsetRedund) :
    SkipsRight cfg bad offset ↔ FrontBad cfg bad offset ∧ Fits cfg bad offset ∧
      (cfg.len ∣ cfg.envSize ∨ ¬Enough cfg bad offset) := by
  constructor
  · intro h
    obtain ⟨hfront, hfits⟩ := (inside_iff cfg bad offset hs ho).mp h.inside
    exact ⟨hfront, hfits, (success_iff cfg bad offset hs ho hfront).mp h.succeeds⟩
  · rintro ⟨hfront, hfits, hsize⟩
    exact ⟨read_back cfg bad offset hs ho hfront,
      (success_iff cfg bad offset hs ho hfront).mpr hsize,
      (inside_iff cfg bad offset hs ho).mpr ⟨hfront, hfits⟩⟩

/-- Blocks of four bytes, one for each copy, and all of them good. -/
def twoBlocks : Config := ⟨0, 4, 4, 4, 4, by decide, by decide, by decide, by decide⟩

theorem skipsRight_first : SkipsRight twoBlocks (fun _ => false) 0 := by
  apply (skipsRight_iff twoBlocks (fun _ => false) 0 (by decide) (.inl rfl)).mpr
  refine ⟨fun k hk => absurd hk (Nat.not_lt_zero _), fun k hlow hhigh => ?_, .inl (by decide)⟩
  have hlow' : k*4 < 4 := hlow
  have hhigh' : 4 < k*4+4 := hhigh
  omega

/-- The second copy is written over the first one. -/
theorem second_over_first : ¬∀ (cfg : Config) (bad : ℕ → Bool) (offset : ℕ), 0 < cfg.envSize →
    offset = cfg.envOffset ∨ offset = cfg.envOffsetRedund → SkipsRight cfg bad offset := by
  intro h
  have hin := (h twoBlocks (fun _ => false) 4 (by decide) (.inr rfl)).inside 0 (by decide) 0
    (by decide)
  exact absurd hin.1 (by decide)

end UBoot.EnvNand
