import Mathlib.Tactic

/-!
# Hashes that work on blocks

A context has a count of the bytes seen, a state and a buffer for the bytes
that do not yet make a block. Whatever pieces a message is given in, the
digest is the one of the message: bytes that earlier blocks have left in the
buffer are never read again.
-/

set_option autoImplicit false

namespace UBoot.BlockHash

/-- A hash with blocks of `block` bytes and a length field of `field` bytes. -/
structure Scheme (S : Type) where
  block : ℕ
  field : ℕ
  wide : field < block
  counts : block ∣ 256^field
  start : S
  process : S → List UInt8 → S
  output : S → List UInt8

structure Context (S : Type) where
  total : ℕ
  state : S
  buffer : List UInt8

variable {S : Type} (h : Scheme S)

/-- Whole blocks are processed, and the rest is left. -/
@[grind]
def absorb (s : S) (input : List UInt8) : S × List UInt8 :=
  if _hl : h.block ≤ input.length then
    absorb (h.process s (input.take h.block)) (input.drop h.block)
  else (s, input)
  termination_by input.length
  decreasing_by
    have := h.wide
    rw [List.length_drop]
    omega

/-- `memcpy` into a buffer, at an index. -/
def overwrite (buffer : List UInt8) (i : ℕ) (input : List UInt8) : List UInt8 :=
  buffer.take i ++ input ++ buffer.drop (i+input.length)

def update (c : Context S) (input : List UInt8) : Context S :=
  if input = [] then c
  else
    let left := c.total % h.block
    let fill := h.block-left
    let total := (c.total+input.length) % 256^h.field
    if left ≠ 0 ∧ fill ≤ input.length then
      let buffer := overwrite c.buffer left (input.take fill)
      let r := absorb h (h.process c.state buffer) (input.drop fill)
      ⟨total, r.1, overwrite buffer 0 r.2⟩
    else
      let r := absorb h c.state input
      ⟨total, r.1, overwrite c.buffer left r.2⟩

/-- The padding fills a block up to the length field. -/
def padding (total : ℕ) : List UInt8 :=
  let last := total % h.block
  let room := h.block-h.field
  0x80::List.replicate ((if last < room then room-last else h.block+room-last)-1) 0

/-- The number of bits, with the highest byte first. -/
def lengthField (total : ℕ) : List UInt8 :=
  (List.range h.field).map fun i => UInt8.ofNat (8*total/256^(h.field-1-i))

def finish (c : Context S) : List UInt8 :=
  h.output (update h (update h c (padding h c.total)) (lengthField h c.total)).state

/-! ## Pieces of a message -/

theorem absorb_short (s : S) (l : List UInt8) (hl : l.length < h.block) : absorb h s l = (s, l) := by
  rw [absorb, dif_neg (by omega)]

theorem absorb_step (s : S) (l : List UInt8) (hl : h.block ≤ l.length) :
    absorb h s l = absorb h (h.process s (l.take h.block)) (l.drop h.block) := by
  rw [absorb, dif_pos hl]

theorem absorb_block (s : S) (l rest : List UInt8) (hl : l.length = h.block) :
    absorb h s (l++rest) = absorb h (h.process s l) rest := by
  rw [absorb_step h s _ (by rw [List.length_append]; omega), ← hl, List.take_left, List.drop_left]

/-- What is left is less than a block. -/
theorem absorb_rest (s : S) (l : List UInt8) :
    (absorb h s l).2.length = l.length % h.block := by
  induction s, l using absorb.induct h with
  | case1 s l hl ih =>
    rw [absorb_step h s l hl, ih, List.length_drop]
    exact (Nat.mod_eq_sub_mod hl).symm
  | case2 s l hl =>
    rw [absorb_short h s l (by omega)]
    exact (Nat.mod_eq_of_lt (not_le.mp hl)).symm

theorem absorb_append (s : S) (l rest : List UInt8) :
    absorb h s (l++rest) = absorb h (absorb h s l).1 ((absorb h s l).2++rest) := by
  induction s, l using absorb.induct h with
  | case1 s l hl ih =>
    have hsplit : l++rest = l.take h.block++(l.drop h.block++rest) := by
      rw [← List.append_assoc, List.take_append_drop]
    rw [hsplit, absorb_block h s _ _ (List.length_take_of_le hl), ih, ← absorb_step h s l hl]
  | case2 s l hl =>
    rw [absorb_short h s l (by omega)]

/-- The context after a message. -/
structure Absorbed (c : Context S) (l : List UInt8) : Prop where
  total : c.total = l.length % 256^h.field
  buffer : c.buffer.length = h.block
  blocks : absorb h h.start l = (c.state, c.buffer.take (l.length % h.block))

theorem length_overwrite (buffer : List UInt8) (i : ℕ) (input : List UInt8)
    (hi : i+input.length ≤ buffer.length) : (overwrite buffer i input).length = buffer.length := by
  simp only [overwrite, List.length_append, List.length_take, List.length_drop]
  omega

theorem take_overwrite (buffer : List UInt8) (i : ℕ) (input : List UInt8) (hi : i ≤ buffer.length) :
    (overwrite buffer i input).take (i+input.length) = buffer.take i++input := by
  have hlen : (buffer.take i++input).length = i+input.length := by
    simp only [List.length_append, List.length_take]
    omega
  rw [overwrite, ← hlen, List.take_left]

theorem Absorbed.left (c : Context S) (l : List UInt8) (hc : Absorbed h c l) :
    c.total % h.block = l.length % h.block := by
  rw [hc.total, Nat.mod_mod_of_dvd _ h.counts]

/-- The rest is put at the start of the buffer. -/
theorem absorbed_of_rest (total : ℕ) (s : S) (rest buffer l : List UInt8)
    (ht : total = l.length % 256^h.field) (hb : buffer.length = h.block)
    (hrun : absorb h h.start l = (s, rest)) : Absorbed h ⟨total, s, overwrite buffer 0 rest⟩ l := by
  have hlen : rest.length = l.length % h.block := by
    rw [← absorb_rest h h.start l, hrun]
  have hlt := Nat.mod_lt l.length (Nat.zero_lt_of_lt h.wide)
  refine ⟨ht, ?_, ?_⟩
  · rw [length_overwrite _ _ _ (by omega)]
    exact hb
  · have htake := take_overwrite buffer 0 rest (Nat.zero_le _)
    rw [Nat.zero_add, List.take_zero, List.nil_append, hlen] at htake
    rw [hrun, htake]

/-- A context goes on as if the message had been in one piece. -/
theorem Absorbed.update (c : Context S) (l input : List UInt8) (hc : Absorbed h c l) :
    Absorbed h (update h c input) (l++input) := by
  have hleft := hc.left h c l
  have hlt : l.length % h.block < h.block := Nat.mod_lt _ (Nat.zero_lt_of_lt h.wide)
  have htake : (c.buffer.take (l.length % h.block)).length = l.length % h.block := by
    rw [List.length_take_of_le]
    rw [hc.buffer]
    exact hlt.le
  have htotal : (c.total+input.length) % 256^h.field = (l++input).length % 256^h.field := by
    rw [hc.total, Nat.mod_add_mod, List.length_append]
  have hall := absorb_append h h.start l input
  rw [hc.blocks] at hall
  unfold BlockHash.update
  by_cases hnil : input = []
  · rw [if_pos hnil, hnil, List.append_nil]
    exact hc
  rw [if_neg hnil, hleft]
  by_cases hfill : l.length % h.block ≠ 0 ∧ h.block-l.length % h.block ≤ input.length
  · -- the buffer is filled up and processed
    have hpiece : (input.take (h.block-l.length % h.block)).length = h.block-l.length % h.block :=
      List.length_take_of_le hfill.2
    have hbuf : overwrite c.buffer (l.length % h.block) (input.take (h.block-l.length % h.block)) =
        c.buffer.take (l.length % h.block)++input.take (h.block-l.length % h.block) := by
      rw [overwrite, hpiece, List.drop_of_length_le (by rw [hc.buffer]; omega), List.append_nil]
    have hblock : (c.buffer.take (l.length % h.block)++
        input.take (h.block-l.length % h.block)).length = h.block := by
      rw [List.length_append, htake, hpiece]
      omega
    rw [if_pos hfill, hbuf]
    refine absorbed_of_rest h _ _ _ _ _ htotal hblock ?_
    rw [hall, ← absorb_block h c.state _ _ hblock, List.append_assoc, List.take_append_drop]
  · rw [if_neg hfill]
    by_cases hzero : l.length % h.block = 0
    · -- there is nothing in the buffer
      rw [hzero]
      refine absorbed_of_rest h _ _ _ _ _ htotal hc.buffer ?_
      rw [hall, hzero]
      rfl
    · -- the buffer is not filled up
      have hshort : input.length < h.block-l.length % h.block := by
        by_contra hge
        exact hfill ⟨hzero, not_lt.mp hge⟩
      have hrun : absorb h h.start (l++input) =
          (c.state, c.buffer.take (l.length % h.block)++input) := by
        rw [hall, absorb_short]
        rw [List.length_append, htake]
        omega
      have hmod : (l++input).length % h.block = l.length % h.block+input.length := by
        rw [← absorb_rest h h.start, hrun, List.length_append, htake]
      have hroom : l.length % h.block+input.length ≤ c.buffer.length := by
        rw [hc.buffer]
        omega
      rw [absorb_short h c.state input (by omega)]
      refine ⟨htotal, ?_, ?_⟩
      · exact (length_overwrite _ _ _ hroom).trans hc.buffer
      · rw [hrun, hmod]
        exact congrArg _ (take_overwrite _ _ _ (by omega)).symm

/-- The digest of a message. -/
def digest (l : List UInt8) : List UInt8 :=
  h.output (absorb h h.start (l++padding h (l.length % 256^h.field)++
    lengthField h (l.length % 256^h.field))).1

/-- The digest is that of the message, whatever is left in the buffer. -/
theorem Absorbed.finish (c : Context S) (l : List UInt8) (hc : Absorbed h c l) :
    finish h c = digest h l := by
  have hp := hc.update h c l (padding h c.total)
  have hf := hp.update h _ _ (lengthField h c.total)
  rw [BlockHash.finish, digest, ← hc.total, hf.blocks]

theorem absorbed_start (buffer : List UInt8) (hb : buffer.length = h.block) :
    Absorbed h ⟨0, h.start, buffer⟩ [] := by
  refine ⟨(Nat.zero_mod _).symm, hb, ?_⟩
  rw [absorb_short h h.start [] (Nat.zero_lt_of_lt h.wide), List.length_nil, Nat.zero_mod]
  rfl

/-- A message in pieces. -/
theorem absorbed_pieces (c : Context S) (l : List UInt8) (hc : Absorbed h c l)
    (pieces : List (List UInt8)) : Absorbed h (pieces.foldl (update h) c) (l++pieces.flatten) := by
  induction pieces generalizing c l with
  | nil =>
    rw [List.flatten_nil, List.append_nil]
    exact hc
  | cons piece pieces ih =>
    rw [List.foldl_cons, List.flatten_cons, ← List.append_assoc]
    exact ih _ _ (hc.update h c l piece)

end UBoot.BlockHash
