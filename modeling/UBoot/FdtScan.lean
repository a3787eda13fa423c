import UBoot.FdtWalk

/-!
# Loops over subnodes by depth

Older code walks over all the nodes below a node with `fdt_next_node` and
takes those of depth one. It comes to the nodes of `fdt_for_each_subnode`.
-/

set_option autoImplicit false

namespace UBoot.Fdt

/-- The nodes of depth one that the loop takes, and the offset it ends with. -/
@[grind]
def scan (b : Blob) : ℕ → ℕ → ℤ → Option (List ℕ × ℕ)
  | 0, _, _ => none
  | fuel+1, noffset, ndepth =>
    if isNeg noffset ∨ ndepth ≤ 0 then some ([], noffset)
    else
      match nextNode b noffset ndepth with
      | none => none
      | some (noffset', ndepth') =>
        (scan b fuel noffset' ndepth').map fun r => (if ndepth = 1 then noffset::r.1 else r.1, r.2)

def children (b : Blob) (parent : ℕ) : Option (List ℕ × ℕ) :=
  (nextNode b parent 0).bind fun r => scan b walkFuel r.1 r.2

theorem scan_step (b : Blob) (fuel o : ℕ) (d : ℤ) (ho : ¬isNeg o) (hd : 0 < d) (l : List ℕ) (e : ℕ)
    (h : scan b (fuel+1) o d = some (l, e)) :
    ∃ o' d' l', nextNode b o d = some (o', d') ∧ scan b fuel o' d' = some (l', e) ∧
      l = if d = 1 then o::l' else l' := by
  rw [scan, if_neg (not_or.mpr ⟨ho, not_le.mpr hd⟩)] at h
  cases hn : nextNode b o d with
  | none =>
    rw [hn] at h
    cases h
  | some r =>
    rw [hn] at h
    obtain ⟨⟨l', e'⟩, hs, hr⟩ := Option.map_eq_some_iff.mp h
    cases hr
    exact ⟨r.1, r.2, l', rfl, hs, rfl⟩

theorem scan_stop (b : Blob) (fuel o : ℕ) (d : ℤ) (h : isNeg o ∨ d ≤ 0) :
    scan b (fuel+1) o d = some ([], o) := by
  rw [scan, if_pos h]

theorem subnodesFrom_neg (b : Blob) (fuel o : ℕ) (h : isNeg o) : subnodesFrom b fuel o = [] := by
  cases fuel with
  | zero => rfl
  | succ fuel => exact if_pos h

theorem scan_pos (b : Blob) (fuel o : ℕ) (d : ℤ) (r : List ℕ × ℕ) (h : scan b fuel o d = some r) :
    ∃ fuel', fuel = fuel'+1 := by
  cases fuel with
  | zero => cases h
  | succ fuel => exact ⟨fuel, rfl⟩

/-- From a node, `fdt_next_subnode` comes to the next node of depth one. -/
theorem scan_next (b : Blob) (fuel o : ℕ) (d : ℤ) (l : List ℕ) (e : ℕ) (hfuel : fuel ≤ walkFuel)
    (h : scan b fuel o d = some (l, e)) (ho : ¬isNeg o) (hd : 1 ≤ d) (f : ℕ) (hf : fuel ≤ f) :
    ∃ n, nextSubnodeLoop b f o d = some n ∧
      ∀ f', fuel ≤ f'+1 → subnodesFrom b f' n = if d = 1 then l.tail else l := by
  induction fuel generalizing o d l f with
  | zero => cases h
  | succ fuel ih =>
    obtain ⟨o', d', l', hn, hs, hl⟩ := scan_step b fuel o d ho (by omega) l e h
    have hrest : (if d = 1 then l.tail else l) = l' := by
      rw [hl]
      split_ifs <;> rfl
    obtain ⟨f, rfl⟩ : ∃ f₀, f = f₀+1 := ⟨f-1, by omega⟩
    simp only [nextSubnodeLoop, hn, hrest]
    by_cases hstop : isNeg o' ∨ d' < 1
    · rw [if_pos hstop]
      obtain ⟨fuel', rfl⟩ := scan_pos b fuel o' d' _ hs
      rw [scan_stop b fuel' o' d' (hstop.imp_right fun hd' => by omega)] at hs
      cases hs
      exact ⟨_, rfl, fun f' _ => subnodesFrom_neg b f' _ (by decide)⟩
    · rw [if_neg hstop]
      rw [not_or, not_lt] at hstop
      by_cases hdeep : 1 < d'
      · rw [if_pos hdeep]
        obtain ⟨n, hloop, hsub⟩ := ih o' d' l' (by omega) hs hstop.1 hstop.2 f (by omega)
        refine ⟨n, hloop, ?_⟩
        intro f' hf'
        rw [hsub f' (by omega), if_neg (by omega)]
      · obtain rfl : d' = 1 := by omega
        rw [if_neg hdeep]
        refine ⟨o', rfl, ?_⟩
        intro f' hf'
        obtain ⟨fuel', rfl⟩ := scan_pos b fuel o' 1 _ hs
        obtain ⟨n, hloop, hsub⟩ := ih o' 1 l' (by omega) hs hstop.1 hstop.2 walkFuel (by omega)
        obtain ⟨f', rfl⟩ : ∃ f₀, f' = f₀+1 := ⟨f'-1, by omega⟩
        obtain ⟨-, -, l'', -, -, hl'⟩ := scan_step b fuel' o' 1 hstop.1 (by omega) l' e hs
        rw [subnodesFrom_step b f' o' hstop.1, nextSubnode, hloop, Option.elim_some,
          hsub f' (by omega), if_pos rfl, hl']
        rfl

theorem nextNodeLoop_depth (b : Blob) (fuel o : ℕ) (d : ℤ) (o' : ℕ) (d' : ℤ)
    (h : nextNodeLoop b fuel o d = some (o', d')) : d' ≤ d+1 := by
  induction fuel generalizing o d with
  | zero => cases h
  | succ fuel ih =>
    rw [nextNodeLoop] at h
    split at h
    · exact ih _ d h
    · exact ih _ d h
    · cases h
      exact le_refl _
    · split at h
      · cases h
        omega
      · have := ih _ (d-1) h
        omega
    · split at h <;> cases h <;> omega

theorem nextNode_depth (b : Blob) (o : ℕ) (d : ℤ) (o' : ℕ) (d' : ℤ)
    (h : nextNode b o d = some (o', d')) : d' ≤ d+1 := by
  unfold nextNode at h
  split at h
  · exact nextNodeLoop_depth b _ _ d o' d' h
  · split at h
    · cases h
      omega
    · exact nextNodeLoop_depth b _ _ d o' d' h

/-- The nodes that the loop takes are the subnodes. -/
theorem children_subnodes (b : Blob) (parent : ℕ) (l : List ℕ) (e : ℕ)
    (h : children b parent = some (l, e)) : subnodes b parent = l := by
  obtain ⟨⟨o, d⟩, hn, hs⟩ := Option.bind_eq_some_iff.mp h
  have hd := nextNode_depth b parent 0 o d hn
  simp only [subnodes, firstSubnode, hn, Option.map_some]
  by_cases hstop : isNeg o ∨ d ≤ 0
  · have hneg : isNeg (if isNeg o ∨ d ≠ 1 then errNotfound else o) := by
      rw [if_pos (hstop.imp_right fun hd' => by omega)]
      decide
    rw [subnodesFrom_neg b _ _ hneg]
    obtain ⟨fuel', hf⟩ := scan_pos b walkFuel o d _ hs
    rw [hf, scan_stop b fuel' o d hstop] at hs
    cases hs
    rfl
  · rw [not_or, not_le] at hstop
    obtain rfl : d = 1 := by omega
    rw [if_neg (by simp [hstop.1])]
    obtain ⟨fuel', hf⟩ := scan_pos b walkFuel o 1 _ hs
    obtain ⟨n, hloop, hsub⟩ := scan_next b walkFuel o 1 l e (le_refl _) hs hstop.1 (le_refl _)
      walkFuel (le_refl _)
    rw [hf] at hs
    obtain ⟨-, -, l', -, -, hl⟩ := scan_step b fuel' o 1 hstop.1 (by omega) l e hs
    rw [show walkFuel = walkFuel-1+1 from rfl, subnodesFrom_step b _ o hstop.1, nextSubnode, hloop,
      Option.elim_some, hsub _ (by decide), if_pos rfl, hl]
    rfl

/-! ## The order of the nodes -/

theorem nextNodeLoop_ge (b : Blob) (hb : Rooted b) (fuel o : ℕ) (d : ℤ) (o' : ℕ) (d' : ℤ)
    (ho : o ≤ 4294967284) (ho4 : o % 4 = 0) (h : nextNodeLoop b fuel o d = some (o', d'))
    (hneg : ¬isNeg o') (hd : 0 ≤ d') : o ≤ o' := by
  induction fuel generalizing o d with
  | zero => cases h
  | succ fuel ih =>
    have hnext := nextTag_next b hb o (by omega) ho4
    rw [nextNodeLoop] at h
    split at h
    case h_1 ht | h_2 ht =>
      obtain ⟨hle, hin, h4, -⟩ := hnext (by rw [ht]; decide)
      exact hle.trans (ih _ d hin h4 h)
    case h_3 =>
      cases h
      exact le_refl _
    case h_4 ht =>
      obtain ⟨hle, hin, h4, -⟩ := hnext (by rw [ht]; decide)
      split at h
      · cases h
        omega
      · exact hle.trans (ih _ (d-1) hin h4 h)
    case h_5 =>
      split at h
      · cases h
        exact absurd ‹_› hneg
      · cases h
        exact absurd (by decide) hneg

/-- The next node is behind the node. -/
theorem nextNode_gt (b : Blob) (hb : Rooted b) (o : ℕ) (d : ℤ) (o' : ℕ) (d' : ℤ) (ho : ¬isNeg o)
    (h : nextNode b o d = some (o', d')) (hneg : ¬isNeg o') (hd : 0 ≤ d') : o < o' := by
  rw [nextNode, if_neg ho] at h
  split at h
  case isTrue hc =>
    cases h
    exact absurd hc hneg
  case isFalse hc =>
    obtain ⟨he, ht⟩ := checkOffset_next b .beginNode o hc
    have ho4 : o % 4 = 0 := by
      by_contra hne
      exact hc (by rw [checkNodeOffset, checkOffset, if_pos (.inr (.inl hne))]; decide)
    have hlt : o < 4294967296 := by
      unfold isNeg at ho
      omega
    have hne : (nextTag b o).tag ≠ .done := by
      rw [ht]
      decide
    have hmove := nextTag_moves b hb o hlt ho4 hne (by rw [ht]; decide)
    obtain ⟨-, hin, h4, -⟩ := nextTag_next b hb o hlt ho4 hne
    rw [checkNodeOffset, he] at h
    exact hmove.trans_le (nextNodeLoop_ge b hb walkFuel _ d o' d' hin h4 h hneg hd)

theorem scan_gt (b : Blob) (hb : Rooted b) (fuel o : ℕ) (d : ℤ) (l : List ℕ) (e parent : ℕ)
    (h : scan b fuel o d = some (l, e)) (ho : ¬isNeg o → 0 < d → parent < o) :
    ∀ n ∈ l, parent < n := by
  induction fuel generalizing o d l with
  | zero => cases h
  | succ fuel ih =>
    by_cases hstop : isNeg o ∨ d ≤ 0
    · rw [scan_stop b fuel o d hstop] at h
      cases h
      simp
    · rw [not_or, not_le] at hstop
      obtain ⟨o', d', l', hn, hs, rfl⟩ := scan_step b fuel o d hstop.1 hstop.2 l e h
      have hlt := ho hstop.1 hstop.2
      have hrest := ih o' d' l' hs fun hneg hd =>
        hlt.trans (nextNode_gt b hb o d o' d' hstop.1 hn hneg (by omega))
      intro n hn
      split at hn
      · rcases List.mem_cons.mp hn with rfl | hn
        · exact hlt
        · exact hrest n hn
      · exact hrest n hn

/-- The nodes below a node are behind it. -/
theorem children_gt (b : Blob) (hb : Rooted b) (parent : ℕ) (hp : ¬isNeg parent) (l : List ℕ) (e : ℕ)
    (h : children b parent = some (l, e)) : ∀ n ∈ l, parent < n := by
  obtain ⟨⟨o, d⟩, hn, hs⟩ := Option.bind_eq_some_iff.mp h
  refine scan_gt b hb walkFuel o d l e parent hs ?_
  intro hneg hd
  exact nextNode_gt b hb parent 0 o d hp hn hneg (by omega)

/-- A tree in which a subnode of the root is found has a root. -/
theorem subnodeOffset_rooted (b : Blob) (name : Name) (o : ℕ) (h : subnodeOffset b 0 name = some o)
    (hneg : ¬isNeg o) : checkHeader b = 0 ∧ IsNode b 0 := by
  unfold subnodeOffset at h
  split at h
  case isTrue hh =>
    rw [Option.some_inj] at h
    subst h
    unfold checkHeader at hneg hh
    split_ifs at hneg hh <;> first | exact absurd (by decide) hneg | exact absurd rfl hh
  case isFalse hh =>
    rw [not_not] at hh
    refine ⟨hh, .refl, ?_⟩
    by_cases hc : isNeg (checkNodeOffset b 0)
    · have hn : nextNode b 0 0 = some (checkNodeOffset b 0, 0) := by
        rw [nextNode, if_neg (by decide), if_pos hc]
      rw [show walkFuel = walkFuel-2+1+1 from rfl, subnodeLoop, if_neg (by decide),
        if_neg (by simp), hn] at h
      simp only [subnodeLoop, hc, true_or, if_true, lt_irrefl, if_false] at h
      cases h
      exact absurd hc hneg
    · exact (checkOffset_next b .beginNode 0 hc).2

end UBoot.Fdt
