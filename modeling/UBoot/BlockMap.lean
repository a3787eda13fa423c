import Mathlib.Data.Nat.Count
import UBoot.ByteStore

/-!
# Bytes laid out over separate blocks

A list of blocks of one length is read as one row of bytes: `addr` is the address of a byte of
the row. A part of the row is a list of `pieces`, one of each block. `goodBlocks` takes the
blocks from those that pass a test, up to an end.
-/

set_option autoImplicit false

namespace UBoot.BlockMap
open UBoot.ByteStore

/-- The address of byte `k` of the row. -/
@[grind]
def addr (len : ℕ) : List ℕ → ℕ → ℕ
  | [], k => k
  | b::bs, k => if k < len then b+k else addr len bs (k-len)

/-- Offsets and lengths of the bytes from `seek` up to `seek+count`. -/
@[grind]
def pieces (len : ℕ) : ℕ → ℕ → List ℕ → List (ℕ × ℕ)
  | _, _, [] => []
  | seek, count, b::bs =>
    if count = 0 then []
    else (b+seek, min count (len-seek))::pieces len 0 (count-min count (len-seek)) bs

/-- The blocks are in rising order and do not overlap. -/
def Apart (len : ℕ) (bs : List ℕ) : Prop := bs.Pairwise (fun b b' => b+len ≤ b')

def Within (p : ℕ × ℕ) (a : ℕ) : Prop := p.1 ≤ a ∧ a < p.1+p.2

section Address

variable (len : ℕ)

theorem block_addr (bs : List ℕ) (b a : ℕ) (hb : b ∈ bs) (ha : Within (b, len) a) :
    Apart len bs → ∃ k < bs.length*len, a = addr len bs k := by
  obtain ⟨hlow, hhigh⟩ := ha
  induction bs with
  | nil => simp at hb
  | cons b' bs ih =>
    intro hap
    obtain ⟨hlater, hap'⟩ := List.pairwise_cons.mp hap
    rcases List.mem_cons.mp hb with rfl | hb
    · refine ⟨a-b, ?_, ?_⟩
      · rw [List.length_cons, Nat.add_mul, Nat.one_mul]
        dsimp only at hhigh
        omega
      · rw [addr, if_pos (by dsimp only at hhigh; omega)]
        exact (Nat.add_sub_cancel' hlow).symm
    · obtain ⟨k, hk, rfl⟩ := ih hb hap'
      refine ⟨k+len, ?_, ?_⟩
      · rw [List.length_cons, Nat.add_mul, Nat.one_mul]
        omega
      · rw [addr, if_neg (by omega), Nat.add_sub_cancel]

/-- The bytes of the row from `seek` on. -/
def row (mem : Memory) (bs : List ℕ) (seek count : ℕ) : List UInt8 :=
  (List.range' seek count).map fun k => mem (addr len bs k)

theorem length_row (mem : Memory) (bs : List ℕ) (seek count : ℕ) :
    (row len mem bs seek count).length = count := by
  rw [row, List.length_map, List.length_range']

theorem row_cons (mem : Memory) (b : ℕ) (bs : List ℕ) (seek count : ℕ) (hs : seek ≤ len) :
    row len mem (b::bs) seek count = load mem (b+seek) (min count (len-seek)) ++
      row len mem bs 0 (count-min count (len-seek)) := by
  have hsplit : count = min count (len-seek)+(count-min count (len-seek)) := by omega
  have hfirst : (List.range' seek (min count (len-seek))).map (fun k => mem (addr len (b::bs) k)) =
      load mem (b+seek) (min count (len-seek)) := by
    unfold load
    rw [← List.map_add_range', List.map_map]
    apply List.map_congr_left
    intro k hk
    rw [List.mem_range'_1] at hk
    rw [addr, if_pos (by omega)]
    rfl
  have hrest : (List.range' (seek+min count (len-seek)) (count-min count (len-seek))).map
      (fun k => mem (addr len (b::bs) k)) = row len mem bs 0 (count-min count (len-seek)) := by
    by_cases hmore : count ≤ len-seek
    · rw [Nat.min_eq_left hmore, Nat.sub_self]
      rfl
    · have hlen : seek+min count (len-seek) = len+0 := by omega
      unfold row
      rw [hlen, ← List.map_add_range', List.map_map]
      apply List.map_congr_left
      intro k hk
      simp only [Function.comp_apply]
      rw [addr, if_neg (by omega), Nat.add_sub_cancel_left]
  conv_lhs => rw [row, hsplit]
  rw [← List.range'_append_1, List.map_append, hfirst, hrest]

/-- The pieces hold the bytes of the row. -/
theorem load_pieces (mem : Memory) (bs : List ℕ) (seek count : ℕ) (hs : seek ≤ len)
    (hroom : seek+count ≤ bs.length*len) :
    (pieces len seek count bs).flatMap (fun p => load mem p.1 p.2) = row len mem bs seek count := by
  induction bs generalizing seek count with
  | nil =>
    rw [List.length_nil, Nat.zero_mul] at hroom
    obtain rfl : count = 0 := by omega
    rfl
  | cons b bs ih =>
    rw [pieces, row_cons len mem b bs seek count hs]
    by_cases hc : count = 0
    · subst hc
      simp [row, load]
    · rw [if_neg hc, List.flatMap_cons]
      rw [List.length_cons, Nat.add_mul, Nat.one_mul] at hroom
      rw [ih 0 _ (Nat.zero_le _) (by omega)]

/-- The bytes of the row are in its pieces. -/
theorem addr_pieces (bs : List ℕ) (seek count k : ℕ) (hlow : seek ≤ k) (hhigh : k < seek+count)
    (hk : k < bs.length*len) (hs : seek ≤ len) :
    ∃ p ∈ pieces len seek count bs, Within p (addr len bs k) := by
  induction bs generalizing seek count k with
  | nil => simp at hk
  | cons b bs ih =>
    rw [pieces, if_neg (by omega), addr]
    rw [List.length_cons, Nat.add_mul, Nat.one_mul] at hk
    by_cases hin : k < len
    · rw [if_pos hin]
      refine ⟨_, List.mem_cons_self, ?_, ?_⟩
      · exact Nat.add_le_add_left hlow b
      · show b+k < b+seek+min count (len-seek)
        omega
    · rw [if_neg hin]
      obtain ⟨p, hp, hw⟩ := ih 0 (count-min count (len-seek)) (k-len) (Nat.zero_le _) (by omega)
        (by omega) (Nat.zero_le _)
      exact ⟨p, List.mem_cons_of_mem _ hp, hw⟩

/-- Every piece lies in a block. -/
theorem piece_block (bs : List ℕ) (seek count : ℕ) (hs : seek ≤ len) (p : ℕ × ℕ)
    (hp : p ∈ pieces len seek count bs) : ∃ b ∈ bs, b ≤ p.1 ∧ p.1+p.2 ≤ b+len := by
  induction bs generalizing seek count with
  | nil => simp [pieces] at hp
  | cons b bs ih =>
    rw [pieces] at hp
    by_cases hc : count = 0
    · rw [if_pos hc] at hp
      simp at hp
    · rw [if_neg hc] at hp
      rcases List.mem_cons.mp hp with rfl | hp
      · refine ⟨b, List.mem_cons_self, Nat.le_add_right _ _, ?_⟩
        show b+seek+min count (len-seek) ≤ b+len
        omega
      · obtain ⟨b', hb', hin⟩ := ih 0 _ (Nat.zero_le _) hp
        exact ⟨b', List.mem_cons_of_mem b hb', hin⟩

end Address

/-! ## Blocks that pass a test -/

/-- Takes `n` blocks from `start` on that are not bad, up to an end; with `true` if there are so
many. A block that cannot be tested ends the search. -/
@[grind]
def goodBlocks (isbad : ℕ → Option Bool) (top len : ℕ) : ℕ → ℕ → ℕ → List ℕ × Bool
  | 0, _, _ => ([], false)
  | fuel+1, start, n =>
    if n = 0 then ([], true)
    else match isbad start with
      | none => ([], false)
      | some b =>
        if top < start+len then ([], false)
        else if b then goodBlocks isbad top len fuel (start+len) n
        else
          let r := goodBlocks isbad top len fuel (start+len) (n-1)
          (start::r.1, r.2)

theorem count_blocks (p : ℕ → Prop) [DecidablePred p] (start len n : ℕ) :
    Nat.count (fun k => p (start+k*len)) (n+1) =
      Nat.count (fun k => p (start+len+k*len)) n + (if p start then 1 else 0) := by
  have hshift : (fun k => p (start+(k+1)*len)) = fun k => p (start+len+k*len) := by
    funext k
    rw [Nat.add_mul, Nat.one_mul, Nat.add_comm (k*len), Nat.add_assoc]
  rw [Nat.count_succ']
  simp only [hshift, Nat.zero_mul, Nat.add_zero]

section Good

variable (isbad : ℕ → Option Bool) (top len : ℕ)

/-- The number of good ones among the first blocks from `start` on. -/
def goodCount (start n : ℕ) : ℕ := Nat.count (fun k => isbad (start+k*len) = some false) n

theorem goodBlocks_inside (fuel start n : ℕ) :
    (∀ b ∈ (goodBlocks isbad top len fuel start n).1, start ≤ b ∧ b+len ≤ top) ∧
    Apart len (goodBlocks isbad top len fuel start n).1 := by
  induction fuel generalizing start n with
  | zero => simp [goodBlocks, Apart]
  | succ fuel ih =>
    rw [goodBlocks]
    by_cases hn : n = 0
    · simp [if_pos hn, Apart]
    · rw [if_neg hn]
      cases isbad start with
      | none => simp [Apart]
      | some b =>
        dsimp only
        by_cases htop : top < start+len
        · simp [if_pos htop, Apart]
        · rw [if_neg htop]
          cases b with
          | true =>
            obtain ⟨hin, hap⟩ := ih (start+len) n
            rw [if_pos rfl]
            refine ⟨fun b hb => ?_, hap⟩
            have hb' := hin b hb
            omega
          | false =>
            obtain ⟨hin, hap⟩ := ih (start+len) (n-1)
            rw [if_neg Bool.false_ne_true]
            refine ⟨fun b hb => ?_, List.pairwise_cons.mpr ⟨fun b hb => (hin b hb).1, hap⟩⟩
            rcases List.mem_cons.mp hb with rfl | hb
            · omega
            · have hb' := hin b hb
              omega

theorem goodBlocks_length (fuel start n : ℕ) :
    (goodBlocks isbad top len fuel start n).1.length ≤ n ∧
    ((goodBlocks isbad top len fuel start n).2 = true →
      (goodBlocks isbad top len fuel start n).1.length = n) := by
  induction fuel generalizing start n with
  | zero => simp [goodBlocks]
  | succ fuel ih =>
    rw [goodBlocks]
    by_cases hn : n = 0
    · simp [hn]
    · rw [if_neg hn]
      cases isbad start with
      | none => simp
      | some b =>
        dsimp only
        by_cases htop : top < start+len
        · simp [if_pos htop]
        · rw [if_neg htop]
          cases b with
          | true => exact ih (start+len) n
          | false =>
            obtain ⟨hle, heq⟩ := ih (start+len) (n-1)
            rw [if_neg Bool.false_ne_true, List.length_cons]
            refine ⟨by omega, fun h => ?_⟩
            have heq' := heq h
            omega

/-- So many blocks are taken only if there are so many good ones. -/
theorem goodBlocks_count (fuel start n sectors : ℕ) (hpos : 0 < len)
    (htop : start+sectors*len = top) :
    (goodBlocks isbad top len fuel start n).1.length ≤ goodCount isbad len start sectors := by
  induction fuel generalizing start n sectors with
  | zero => exact Nat.zero_le _
  | succ fuel ih =>
    rw [goodBlocks]
    by_cases hn : n = 0
    · rw [if_pos hn]
      exact Nat.zero_le _
    · rw [if_neg hn]
      cases hb : isbad start with
      | none => exact Nat.zero_le _
      | some b =>
        dsimp only
        by_cases hend : top < start+len
        · rw [if_pos hend]
          exact Nat.zero_le _
        · rw [if_neg hend]
          cases sectors with
          | zero => omega
          | succ sectors =>
            rw [Nat.add_mul, Nat.one_mul] at htop
            have hcount := count_blocks (fun b => isbad b = some false) start len sectors
            unfold goodCount
            rw [hcount]
            cases b with
            | true =>
              have hrest := ih (start+len) n sectors (by omega)
              rw [if_pos rfl]
              exact le_trans hrest (Nat.le_add_right _ _)
            | false =>
              have hrest := ih (start+len) (n-1) sectors (by omega)
              rw [if_neg Bool.false_ne_true, if_pos hb, List.length_cons]
              exact Nat.add_le_add_right hrest 1

end Good

end UBoot.BlockMap
