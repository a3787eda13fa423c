import UBoot.Fdt

/-!
# The walk over the structure block

From offset 0 every tag leads to the next one. The offsets stay in the blob
and never go back, as the blob's own header would otherwise have to be a tag.
The functions that look for nodes return offsets of this walk.
-/

set_option autoImplicit false

namespace UBoot.Fdt

theorem fdt32_lt (b : Blob) (a : ℕ) : fdt32 b a < 4294967296 := by
  have h0 := (byteAt b a).toNat_lt
  have h1 := (byteAt b (a+1)).toNat_lt
  have h2 := (byteAt b (a+2)).toNat_lt
  have h3 := (byteAt b (a+3)).toNat_lt
  unfold fdt32
  omega

theorem w32_lt (x : ℕ) : w32 x < 4294967296 := by
  unfold w32
  omega

theorem w32_of_lt (x : ℕ) (h : x < 4294967296) : w32 x = x := by
  unfold w32
  omega

/-- What `fdt_offset_ptr` lets pass lies in the blob. -/
theorem offsetPtr_inside (b : Blob) (offset len p : ℕ) (ho : offset < 4294967296)
    (hl : len < 4294967296) (h : offsetPtr b offset len = some p) :
    p = offDtStruct b+offset ∧ offDtStruct b+offset+len ≤ totalsize b := by
  have hbase : offDtStruct b < 4294967296 := fdt32_lt b 8
  have htot : totalsize b < 4294967296 := fdt32_lt b 4
  unfold offsetPtr at h
  simp only at h
  split_ifs at h with h1 h2
  rw [Option.some_inj] at h
  unfold w32 at h h1
  omega

theorem skipName_ge (b : Blob) (fuel offset e : ℕ) (ho : offset < 4294967296)
    (h : skipName b fuel offset = some e) : offset < e ∧ e < 4294967296 := by
  induction fuel generalizing offset with
  | zero => cases h
  | succ fuel ih =>
    have htot : totalsize b < 4294967296 := fdt32_lt b 4
    unfold skipName at h
    cases hp : offsetPtr b offset 1 with
    | none =>
      rw [hp] at h
      cases h
    | some p =>
      have hin := (offsetPtr_inside b offset 1 p ho (by omega) hp).2
      have hw : w32 (offset+1) = offset+1 := w32_of_lt _ (by omega)
      rw [hp, hw] at h
      simp only at h
      split_ifs at h with h0
      · have := ih (offset+1) (by omega) h
        omega
      · cases h
        omega

theorem tagBody_ge (b : Blob) (v offset : ℕ) (tag : Tag) (e : ℕ) (ho : offset < 4294967296)
    (h : tagBody b v offset = some (tag, e)) : e < 4294967296 ∧
      (tag ≠ .done → v = 1 ∨ v = 2 ∨ v = 3 ∨ v = 4) ∧
      (tag = .endNode ∨ tag = .done → e = offset) := by
  unfold tagBody at h
  split_ifs at h with h1 h2 h3 h4 h5
  · obtain ⟨e', he, heq⟩ := Option.map_eq_some_iff.mp h
    cases heq
    exact ⟨(skipName_ge b walkFuel offset e ho he).2, fun _ => .inl h1, by simp⟩
  · obtain ⟨p, -, heq⟩ := Option.map_eq_some_iff.mp h
    cases heq
    exact ⟨w32_lt _, fun _ => .inr (.inr (.inl h2)), by simp⟩
  · cases h
    exact ⟨ho, fun hne => absurd rfl hne, fun _ => rfl⟩
  · cases h
    exact ⟨ho, fun _ => .inr (.inl h4), fun _ => rfl⟩
  · cases h
    exact ⟨ho, fun _ => .inr (.inr (.inr h5)), fun _ => rfl⟩

theorem tagBody_moves (b : Blob) (v offset : ℕ) (tag : Tag) (e : ℕ) (ho : offset < 4294967296)
    (h : tagBody b v offset = some (tag, e)) (ht : tag ≠ .prop) : offset ≤ e := by
  unfold tagBody at h
  split_ifs at h with h1 h2 h3 h4 h5
  · obtain ⟨e', he, heq⟩ := Option.map_eq_some_iff.mp h
    cases heq
    exact (skipName_ge b walkFuel offset e ho he).1.le
  · obtain ⟨p, -, heq⟩ := Option.map_eq_some_iff.mp h
    cases heq
    exact absurd rfl ht
  all_goals
    cases h
    exact le_rfl

/-- What a tag that is not the end is made of. -/
theorem nextTag_body (b : Blob) (o : ℕ) (ho : o < 4294967296) (h : (nextTag b o).tag ≠ .done) :
    ∃ e, tagBody b (fdt32 b (offDtStruct b+o)) (o+4) = some ((nextTag b o).tag, e) ∧
      (nextTag b o).next = tagalign e ∧ offDtStruct b+o+4 ≤ totalsize b ∧
      offDtStruct b+o+minus e o ≤ totalsize b := by
  have htot : totalsize b < 4294967296 := fdt32_lt b 4
  unfold nextTag at h ⊢
  cases hp : offsetPtr b o 4 with
  | none =>
    rw [hp] at h
    exact absurd rfl h
  | some p =>
    obtain ⟨hpe, hin⟩ := offsetPtr_inside b o 4 p ho (by omega) hp
    have hw : w32 (o+4) = o+4 := w32_of_lt _ (by omega)
    rw [hp, hw, hpe] at h
    rw [hw, hpe]
    simp only at h ⊢
    cases hb : tagBody b (fdt32 b (offDtStruct b+o)) (o+4) with
    | none =>
      rw [hb] at h
      exact absurd rfl h
    | some r =>
      obtain ⟨tag, e⟩ := r
      rw [hb] at h
      simp only at h ⊢
      cases hq : offsetPtr b o (minus e o) with
      | none =>
        rw [hq] at h
        exact absurd rfl h
      | some _ => exact ⟨e, rfl, rfl, hin, (offsetPtr_inside b o _ _ ho (w32_lt _) hq).2⟩

/-- The parts of a tag that is not the end. -/
theorem nextTag_cases (b : Blob) (o : ℕ) (ho : o < 4294967296) (h : (nextTag b o).tag ≠ .done) :
    ∃ e, (nextTag b o).next = tagalign e ∧ o ≤ e ∧ offDtStruct b+e ≤ totalsize b ∧
      offDtStruct b+o+4 ≤ totalsize b ∧ fdt32 b (offDtStruct b+o) ≤ 4 ∧
      0 < fdt32 b (offDtStruct b+o) ∧ ((nextTag b o).tag = .endNode → e = o+4) := by
  have htot : totalsize b < 4294967296 := fdt32_lt b 4
  obtain ⟨e, hb, hn, hin, hin2⟩ := nextTag_body b o ho h
  obtain ⟨he, hv, hend⟩ := tagBody_ge b _ (o+4) _ e (by omega) hb
  have hv' := hv h
  unfold minus w32 at hin2
  exact ⟨e, hn, by omega, by omega, hin, by omega, by omega, fun ht => hend (.inl ht)⟩

/-- The first tag is not part of the header in front of its own fields. -/
theorem struct_room (b : Blob) (hh : checkHeader b = 0) (ht : (nextTag b 0).tag ≠ .done) :
    totalsize b+13 ≤ offDtStruct b+4294967296 := by
  obtain ⟨-, -, -, -, hin, hle, hpos, -⟩ := nextTag_cases b 0 (by omega) ht
  have htot : totalsize b < 4294967296 := fdt32_lt b 4
  have hmagic : magic b = fdtMagic ∨ magic b = fdtSwMagic := by
    unfold checkHeader at hh
    by_cases h1 : magic b = fdtMagic
    · exact .inl h1
    · by_cases h2 : magic b = fdtSwMagic
      · exact .inr h2
      · rw [if_neg h1, if_neg h2] at hh
        cases hh
  by_contra hlt
  have hbase : offDtStruct b < 12 := by omega
  rw [Nat.add_zero] at hle hpos hin
  have hb0 := (byteAt b 0).toNat_lt
  have hb1 := (byteAt b 1).toNat_lt
  have hb2 := (byteAt b 2).toNat_lt
  have hb3 := (byteAt b 3).toNat_lt
  have hb4 := (byteAt b 4).toNat_lt
  have hb5 := (byteAt b 5).toNat_lt
  have hb6 := (byteAt b 6).toNat_lt
  have hb7 := (byteAt b 7).toNat_lt
  have hb8 := (byteAt b 8).toNat_lt
  have hb9 := (byteAt b 9).toNat_lt
  have hb10 := (byteAt b 10).toNat_lt
  have hb11 := (byteAt b 11).toNat_lt
  generalize hk : offDtStruct b = k at *
  have hk' : fdt32 b 8 = k := hk
  have ht' : fdt32 b 4 = totalsize b := rfl
  have hm' : fdt32 b 0 = magic b := rfl
  simp only [fdtMagic, fdtSwMagic] at hmagic
  interval_cases k <;> simp only [fdt32, Nat.reduceAdd] at hle hpos hk' ht' hm' <;> omega

/-- A blob whose first tag is a tag. -/
structure Rooted (b : Blob) : Prop where
  room : totalsize b+13 ≤ offDtStruct b+4294967296

theorem nextTag_next (b : Blob) (hb : Rooted b) (o : ℕ) (ho : o < 4294967296) (ho4 : o % 4 = 0)
    (h : (nextTag b o).tag ≠ .done) : o ≤ (nextTag b o).next ∧
      (nextTag b o).next ≤ 4294967284 ∧ (nextTag b o).next % 4 = 0 ∧
      offDtStruct b+(nextTag b o).next < 4294967296+3 := by
  obtain ⟨e, he, h1, h2, -⟩ := nextTag_cases b o ho h
  have hroom := hb.room
  have htot : totalsize b < 4294967296 := fdt32_lt b 4
  rw [he, tagalign, w32_of_lt _ (by omega)]
  omega

/-- Only a property can be of no length. -/
theorem nextTag_moves (b : Blob) (hb : Rooted b) (o : ℕ) (ho : o < 4294967296) (ho4 : o % 4 = 0)
    (h : (nextTag b o).tag ≠ .done) (hp : (nextTag b o).tag ≠ .prop) : o < (nextTag b o).next := by
  obtain ⟨e, hbody, hn, hin, hin2⟩ := nextTag_body b o ho h
  have hroom := hb.room
  have htot : totalsize b < 4294967296 := fdt32_lt b 4
  have he := (tagBody_ge b _ (o+4) _ e (by omega) hbody).1
  have hge := tagBody_moves b _ (o+4) _ e (by omega) hbody hp
  unfold minus w32 at hin2
  rw [hn, tagalign, w32_of_lt _ (by omega)]
  omega

/-- The end of a node is four bytes long. -/
theorem nextTag_end (b : Blob) (hb : Rooted b) (o : ℕ) (ho : o < 4294967296) (ho4 : o % 4 = 0)
    (h : (nextTag b o).tag = .endNode) : offDtStruct b+(nextTag b o).next < 4294967296 := by
  obtain ⟨e, he, h1, h2, h3, -, -, h4⟩ := nextTag_cases b o ho (by rw [h]; decide)
  have hroom := hb.room
  have htot : totalsize b < 4294967296 := fdt32_lt b 4
  rw [he, h4 h, tagalign, w32_of_lt _ (by omega)]
  omega

/-- The end comes with an error code or behind the offset. -/
theorem nextTag_done (b : Blob) (o : ℕ) (ho : o ≤ 4294967284) (ho4 : o % 4 = 0)
    (h : (nextTag b o).tag = .done) : o ≤ (nextTag b o).next ∧ (nextTag b o).next < 4294967296 ∧
      (4294967296 ≤ offDtStruct b+o → (nextTag b o).next = errTruncated) := by
  have htot : totalsize b < 4294967296 := fdt32_lt b 4
  unfold nextTag at h ⊢
  cases hp : offsetPtr b o 4 with
  | none =>
    simp only [errTruncated, err]
    exact ⟨by omega, by omega, fun _ => trivial⟩
  | some p =>
    obtain ⟨-, hin⟩ := offsetPtr_inside b o 4 p (by omega) (by omega) hp
    have hw : w32 (o+4) = o+4 := w32_of_lt _ (by omega)
    rw [hp, hw] at h
    rw [hw]
    simp only at h ⊢
    cases hb : tagBody b (fdt32 b p) (o+4) with
    | none =>
      simp only [errBadstructure, err]
      omega
    | some r =>
      obtain ⟨tag, e⟩ := r
      obtain ⟨-, -, hend⟩ := tagBody_ge b _ (o+4) tag e (by omega) hb
      rw [hb] at h
      simp only at h ⊢
      cases hq : offsetPtr b o (minus e o) with
      | none =>
        simp only [errBadstructure, err]
        omega
      | some _ =>
        rw [hq] at h
        simp only at h ⊢
        rw [hend (.inr h), tagalign, w32_of_lt _ (by omega)]
        omega

/-! ## Offsets of the walk -/

/-- The offsets that the walk from `o` comes to. -/
def Along (b : Blob) : ℕ → ℕ → Prop :=
  Relation.ReflTransGen fun o o' => (nextTag b o).tag ≠ .done ∧ o' = (nextTag b o).next

theorem along_next (b : Blob) (o o' : ℕ) (h : Along b o o') (ht : (nextTag b o').tag ≠ .done) :
    Along b o (nextTag b o').next :=
  Relation.ReflTransGen.tail h ⟨ht, rfl⟩

/-- A tree with a tag has a first tag. -/
theorem along_rooted (b : Blob) (o : ℕ) (h : Along b 0 o) (hh : checkHeader b = 0)
    (ht : (nextTag b o).tag ≠ .done) : Rooted b := by
  refine ⟨struct_room b hh ?_⟩
  cases Relation.ReflTransGen.cases_head h with
  | inl heq =>
    rw [heq]
    exact ht
  | inr hstep =>
    obtain ⟨_, ⟨hne, -⟩, -⟩ := hstep
    exact hne

/-- A node of the tree. -/
structure IsNode (b : Blob) (o : ℕ) : Prop where
  along : Along b 0 o
  tag : (nextTag b o).tag = .beginNode

/-- A tree with a node has a first tag. -/
theorem IsNode.rooted (b : Blob) (o : ℕ) (ho : IsNode b o) (hh : checkHeader b = 0) : Rooted b := by
  apply along_rooted b o ho.along hh
  rw [ho.tag]
  decide

theorem checkOffset_next (b : Blob) (tag : Tag) (o : ℕ) (h : ¬isNeg (checkOffset b tag o)) :
    checkOffset b tag o = (nextTag b o).next ∧ (nextTag b o).tag = tag := by
  unfold checkOffset at h ⊢
  split_ifs at h ⊢ with h1
  · exact absurd (by decide) h
  · push Not at h1
    exact ⟨rfl, h1.2.2⟩

theorem nextNodeLoop_node (b : Blob) (fuel o : ℕ) (depth : ℤ) (o' : ℕ) (d' : ℤ) (ho : Along b 0 o)
    (h : nextNodeLoop b fuel o depth = some (o', d')) (hneg : ¬isNeg o') (hd : 0 ≤ d') :
    IsNode b o' := by
  induction fuel generalizing o depth with
  | zero => cases h
  | succ fuel ih =>
    rw [nextNodeLoop] at h
    cases ht : (nextTag b o).tag with
    | beginNode =>
      rw [ht] at h
      cases h
      exact ⟨ho, ht⟩
    | prop =>
      rw [ht] at h
      exact ih _ depth (along_next b 0 o ho (by rw [ht]; decide)) h
    | nop =>
      rw [ht] at h
      exact ih _ depth (along_next b 0 o ho (by rw [ht]; decide)) h
    | endNode =>
      rw [ht] at h
      simp only at h
      split_ifs at h with h1
      · cases h
        omega
      · exact ih _ _ (along_next b 0 o ho (by rw [ht]; decide)) h
    | done =>
      rw [ht] at h
      simp only at h
      split_ifs at h with h1
      · cases h
        exact absurd h1 hneg
      · cases h
        exact absurd (by decide) hneg

theorem nextNode_node (b : Blob) (o : ℕ) (depth : ℤ) (o' : ℕ) (d' : ℤ) (ho : IsNode b o)
    (h : nextNode b o depth = some (o', d')) (hneg : ¬isNeg o') (hd : 0 ≤ d') : IsNode b o' := by
  unfold nextNode at h
  split_ifs at h with h1 h2
  · exact nextNodeLoop_node b _ 0 depth o' d' .refl h hneg hd
  · cases h
    exact absurd h2 hneg
  · obtain ⟨h3, h4⟩ := checkOffset_next b .beginNode o h2
    refine nextNodeLoop_node b _ _ depth o' d' ?_ h hneg hd
    rw [checkNodeOffset, h3]
    exact along_next b 0 o ho.along (by rw [h4]; decide)

theorem subnodeLoop_node (b : Blob) (name : Name) (fuel o : ℕ) (depth : ℤ) (o' : ℕ)
    (ho : ¬isNeg o → 0 ≤ depth → IsNode b o) (h : subnodeLoop b name fuel o depth = some o')
    (hneg : ¬isNeg o') : IsNode b o' := by
  induction fuel generalizing o depth with
  | zero => cases h
  | succ fuel ih =>
    rw [subnodeLoop] at h
    split_ifs at h with h1 h2 h3
    · cases h
      exact absurd (by decide) hneg
    · cases h
      exact absurd (h1.resolve_right h2) hneg
    · cases h
      push Not at h1
      exact ho h1.1 h1.2
    · push Not at h1
      cases hn : nextNode b o depth with
      | none =>
        rw [hn] at h
        cases h
      | some r =>
        obtain ⟨x, d⟩ := r
        rw [hn] at h
        exact ih x d (fun hx hd => nextNode_node b o depth x d (ho h1.1 h1.2) hn hx hd) h

theorem subnodeOffset_node (b : Blob) (parent : ℕ) (name : Name) (o : ℕ) (hp : IsNode b parent)
    (h : subnodeOffset b parent name = some o) (hneg : ¬isNeg o) : IsNode b o := by
  unfold subnodeOffset at h
  split_ifs at h with h1
  · rw [Option.some_inj] at h
    subst h
    unfold checkHeader at hneg h1
    split_ifs at hneg h1 <;> first | exact absurd (by decide) hneg | exact absurd rfl h1
  · exact subnodeLoop_node b name _ parent 0 o (fun _ _ => hp) h hneg

theorem pathOffset_node (b : Blob) (names : List Name) (o o' : ℕ) (ho : IsNode b o)
    (h : pathOffset b names o = some o') (hneg : ¬isNeg o') : IsNode b o' := by
  induction names generalizing o with
  | nil =>
    cases h
    exact ho
  | cons name rest ih =>
    rw [pathOffset] at h
    cases hs : subnodeOffset b o name with
    | none =>
      rw [hs] at h
      cases h
    | some x =>
      rw [hs] at h
      simp only at h
      split_ifs at h with h1
      · cases h
        exact absurd h1 hneg
      · exact ih x (subnodeOffset_node b o name x ho hs h1) h

/-! ## Properties -/

theorem getPropertyLoop_error (b : Blob) (name : Name) (fuel offset e : ℕ)
    (h : getPropertyLoop b name fuel offset = some (.error e)) : isNeg e := by
  induction fuel generalizing offset with
  | zero => cases h
  | succ fuel ih =>
    rw [getPropertyLoop] at h
    split_ifs at h with h1 h2 h3
    · cases h
      exact h1
    · cases h
      decide
    · cases h
    · cases hn : nextPropertyOffset b offset with
      | none =>
        rw [hn] at h
        cases h
      | some o =>
        rw [hn] at h
        exact ih o h

theorem getprop_error (b : Blob) (nodeoffset : ℕ) (name : Name) (e : ℕ)
    (h : getprop b nodeoffset name = some (.error e)) : isNeg e := by
  obtain ⟨r, hr, heq⟩ := Option.map_eq_some_iff.mp h
  obtain ⟨offset, -, hr⟩ := Option.bind_eq_some_iff.mp hr
  cases r with
  | ok o => cases heq
  | error e' =>
    cases heq
    exact getPropertyLoop_error b name walkFuel offset e hr

/-- A property is found only in a node. -/
theorem getprop_ok (b : Blob) (nodeoffset : ℕ) (name : Name) (v : Value)
    (h : getprop b nodeoffset name = some (.ok v)) : (nextTag b nodeoffset).tag = .beginNode := by
  obtain ⟨r, hr, heq⟩ := Option.map_eq_some_iff.mp h
  obtain ⟨offset, ho, hr⟩ := Option.bind_eq_some_iff.mp hr
  unfold firstPropertyOffset at ho
  split_ifs at ho with h1
  · cases ho
    rw [show walkFuel = walkFuel-1+1 from rfl, getPropertyLoop, if_pos h1] at hr
    cases hr
    cases heq
  · exact (checkOffset_next b .beginNode nodeoffset h1).2

/-! ## Subnodes -/

/-- The subnodes that `fdt_for_each_subnode` comes to from one of them. -/
@[grind]
def subnodesFrom (b : Blob) : ℕ → ℕ → List ℕ
  | 0, _ => []
  | fuel+1, node =>
    if isNeg node then []
    else
      match nextSubnode b node with
      | none => [node]
      | some node' => node::subnodesFrom b fuel node'

@[grind]
def subnodes (b : Blob) (parent : ℕ) : List ℕ :=
  match firstSubnode b parent with
  | none => []
  | some node => subnodesFrom b walkFuel node

section Loop

variable {α : Type} (b : Blob) (parent : ℕ) (body : ℕ → Option (Option α))

/-- The cases of one round of the loop. -/
theorem forEachSubnode_step (fuel node : ℕ) (hneg : ¬isNeg node) :
    forEachSubnode b body (fuel+1) node = (body node).bind fun r => r.elim
      ((nextSubnode b node).bind fun node' => forEachSubnode b body fuel node')
      (fun a => some (.ok a)) := by
  rw [forEachSubnode, if_neg hneg]
  cases hb : body node with
  | none => rfl
  | some r =>
    cases r with
    | some a => rfl
    | none =>
      cases nextSubnode b node <;> rfl

theorem subnodesFrom_step (fuel node : ℕ) (hneg : ¬isNeg node) :
    subnodesFrom b (fuel+1) node =
      node::(nextSubnode b node).elim [] (fun node' => subnodesFrom b fuel node') := by
  rw [subnodesFrom, if_neg hneg]
  cases nextSubnode b node <;> rfl

/-- The loop is left at the first subnode whose body has a result. -/
theorem forEachSubnode_ok (fuel node : ℕ) (a : α)
    (h : forEachSubnode b body fuel node = some (.ok a)) :
    ∃ before n after, subnodesFrom b fuel node = before++n::after ∧
      (∀ m ∈ before, body m = some none) ∧ body n = some (some a) := by
  induction fuel generalizing node with
  | zero => cases h
  | succ fuel ih =>
    by_cases hneg : isNeg node
    · rw [forEachSubnode, if_pos hneg] at h
      cases h
    rw [forEachSubnode_step b body fuel node hneg] at h
    rw [subnodesFrom_step b fuel node hneg]
    obtain ⟨r, hr, h⟩ := Option.bind_eq_some_iff.mp h
    cases r with
    | some a' =>
      cases h
      exact ⟨[], node, _, rfl, by simp, hr⟩
    | none =>
      obtain ⟨node', hn, h⟩ := Option.bind_eq_some_iff.mp h
      obtain ⟨before, n, after, hlist, hbefore, hbody⟩ := ih node' h
      refine ⟨node::before, n, after, by rw [hn, Option.elim_some, hlist]; rfl, ?_, hbody⟩
      intro m hm
      rcases List.mem_cons.mp hm with rfl | hm
      · exact hr
      · exact hbefore m hm

/-- Without a fault in front of it, a result is found or an earlier one is. -/
theorem forEachSubnode_hit (fuel node : ℕ) (before after : List ℕ) (n : ℕ) (a : α)
    (hlist : subnodesFrom b fuel node = before++n::after) (hbefore : ∀ m ∈ before, body m ≠ none)
    (hbody : body n = some (some a)) : ∃ a', forEachSubnode b body fuel node = some (.ok a') := by
  induction fuel generalizing node before with
  | zero => simp [subnodesFrom] at hlist
  | succ fuel ih =>
    by_cases hneg : isNeg node
    · rw [subnodesFrom, if_pos hneg] at hlist
      simp at hlist
    rw [forEachSubnode_step b body fuel node hneg]
    rw [subnodesFrom_step b fuel node hneg] at hlist
    cases before with
    | nil =>
      obtain ⟨rfl, -⟩ := List.cons.inj hlist
      rw [hbody]
      exact ⟨a, rfl⟩
    | cons m before =>
      obtain ⟨rfl, hrest⟩ := List.cons.inj hlist
      obtain ⟨r, hr⟩ := Option.ne_none_iff_exists'.mp (hbefore node List.mem_cons_self)
      rw [hr]
      cases r with
      | some a' => exact ⟨a', rfl⟩
      | none =>
        cases hn : nextSubnode b node with
        | none =>
          rw [hn] at hrest
          simp at hrest
        | some node' =>
          rw [hn] at hrest
          exact ih node' before hrest fun m hm => hbefore m (List.mem_cons_of_mem _ hm)

/-- The loop comes to its end exactly if no body has a result. -/
theorem forEachSubnode_error (fuel node e : ℕ) : forEachSubnode b body fuel node = some (.error e) ↔
    forEachSubnode b (fun _ => some (none : Option α)) fuel node = some (.error e) ∧
      ∀ m ∈ subnodesFrom b fuel node, body m = some none := by
  induction fuel generalizing node with
  | zero => simp [forEachSubnode]
  | succ fuel ih =>
    by_cases hneg : isNeg node
    · simp [forEachSubnode, subnodesFrom, hneg]
    rw [forEachSubnode_step b body fuel node hneg, forEachSubnode_step b _ fuel node hneg,
      subnodesFrom_step b fuel node hneg]
    cases hb : body node with
    | none => simp [hb]
    | some r =>
      cases r with
      | some a => simp [hb]
      | none =>
        cases hn : nextSubnode b node with
        | none => simp
        | some node' => simp [hb, ih node']

theorem forSubnodes_ok (a : α) (h : forSubnodes b parent body = some (.ok a)) :
    ∃ before n after, subnodes b parent = before++n::after ∧
      (∀ m ∈ before, body m = some none) ∧ body n = some (some a) := by
  obtain ⟨node, hf, h⟩ := Option.bind_eq_some_iff.mp h
  rw [subnodes, hf]
  exact forEachSubnode_ok b body walkFuel node a h

theorem forSubnodes_hit (before after : List ℕ) (n : ℕ) (a : α)
    (hlist : subnodes b parent = before++n::after) (hbefore : ∀ m ∈ before, body m ≠ none)
    (hbody : body n = some (some a)) : ∃ a', forSubnodes b parent body = some (.ok a') := by
  unfold subnodes at hlist
  cases hf : firstSubnode b parent with
  | none =>
    rw [hf] at hlist
    simp at hlist
  | some node =>
    rw [hf] at hlist
    rw [forSubnodes, hf, Option.bind_some]
    exact forEachSubnode_hit b body walkFuel node before after n a hlist hbefore hbody

theorem forSubnodes_error (e : ℕ) : forSubnodes b parent body = some (.error e) ↔
    forSubnodes b parent (fun _ => some (none : Option α)) = some (.error e) ∧
      ∀ m ∈ subnodes b parent, body m = some none := by
  unfold forSubnodes subnodes
  cases firstSubnode b parent with
  | none => simp
  | some node => simpa using forEachSubnode_error b body walkFuel node e

end Loop

end UBoot.Fdt
