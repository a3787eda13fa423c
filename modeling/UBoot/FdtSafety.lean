import UBoot.FdtExact

/-!
# Blobs that were not checked

`fdt_find_regions` walks over a structure block of which only the header is
known. The elements of the stack, of the path buffer and of the region array
that a round touches are listed. They are inside of their arrays, and the walk
comes to an end with regions of the blob, exactly if no end tag comes without
its begin tag, no property has the length that leads back to it, no tag ends
beyond 2 GiB, and the block does not end behind the blob.
-/

set_option autoImplicit false

namespace UBoot.Fdt

/-- An element of one of the three arrays. -/
inductive Access where
  | stack (i : ℤ)
  | path (i : ℕ)
  | region (i : ℕ)
  deriving DecidableEq

def Access.InBounds (q : Search) : Access → Prop
  | .stack i => 0 ≤ i ∧ i < fdtMaxDepth
  | .path i => i < q.pathLen
  | .region i => i < q.maxRegions

/-- The elements of the stack and the path buffer that a round touches. -/
@[grind]
def accesses (b : Blob) (q : Search) (w : Walk) (offset : ℕ) : List Access :=
  match (nextTag b offset).tag with
  | .prop => []
  | .nop => []
  | .done => []
  | .beginNode =>
    if w.stack.length = fdtMaxDepth then []
    else
      match getName b offset with
      | none => []
      | some p =>
        let name := cstrAt b p
        if q.pathLen ≤ w.path.length+2+name.length then []
        else
          -- the slash, unless the path is that of the root, and the name with its end
          let slash := if w.path.length ≠ 1 then [Access.path w.path.length] else []
          slash ++ (List.range (name.length+1)).map (fun k => .path (w.path.length+slash.length+k)) ++
            [.stack w.stack.length]
  | .endNode =>
    -- the path is read from its end to the last slash, where it is cut
    let slash := (parentPath w.path).length
    .stack (w.stack.length-1)::.path slash::
      (List.range (w.path.length-slash)).map (fun k => .path (slash+k))

/-- The elements of the region array that the end of a round touches. -/
def markAccesses (q : Search) (w : Walk) (taken : Bool) : List Access :=
  match taken, w.start with
  | true, none => if w.count ≠ 0 ∧ w.count ≤ q.maxRegions then [.region (w.count-1)] else []
  | false, some _ => if w.count < q.maxRegions then [.region w.count] else []
  | _, _ => []

/-- The rounds of the loop: an offset and the variables there. -/
inductive Reached (b : Blob) (q : Search) : ℕ → Walk → Prop where
  | start : Reached b q 0 startWalk
  | step (o : ℕ) (w w' : Walk) : Reached b q o w → visit b q w o = some (.ok w') →
      (nextTag b o).tag ≠ .done → Reached b q (nextTag b o).next w'

/-- Every access is inside of its array, and the function returns an error or
regions of the structure block inside of the blob. -/
structure Safe (b : Blob) (q : Search) : Prop where
  first : (Access.path 0).InBounds q
  inBounds : ∀ o w, Reached b q o w → ∀ taken, ∀ a ∈ accesses b q w o ++ markAccesses q w taken,
    a.InBounds q
  returns : ∃ r, findRegions b q = some r
  inside : ∀ count region, findRegions b q = some (.ok (count, region)) → ∀ k < count,
    k < q.maxRegions → offDtStruct b ≤ (region k).offset ∧
      (region k).offset+(region k).size ≤ totalsize b

/-- What the tag at an offset has to meet for the round there. -/
structure Sound (b : Blob) (q : Search) (o : ℕ) (w : Walk) : Prop where
  balanced : (nextTag b o).tag = .endNode → w.stack ≠ []
  prop : (nextTag b o).tag = .prop → ¬isNeg (nextTag b o).next ∧ (nextTag b o).next ≠ o
  node : (nextTag b o).tag = .beginNode → w.stack.length ≠ fdtMaxDepth →
    ¬isNeg (nextTag b o).next
  ending : (nextTag b o).tag = .done → (nextTag b o).next = sizeDtStruct b →
    (mark b q w true o (nextTag b o).next).count < q.maxRegions →
    offDtStruct b+sizeDtStruct b ≤ totalsize b

/-! ## Rounds -/

theorem Reached.along (b : Blob) (q : Search) (o : ℕ) (w : Walk) (h : Reached b q o w) :
    Along b 0 o := by
  induction h with
  | start => exact .refl
  | step o w w' _ _ ht ih => exact along_next b 0 o ih ht

theorem Reached.spot (b : Blob) (q : Search) (o : ℕ) (w : Walk) (h : Reached b q o w)
    (hh : checkHeader b = 0) : Spot b o := by
  induction h with
  | start => exact spot_zero b
  | step o w w' hr _ ht ih => exact ih.next b (along_rooted b o (hr.along b q o w) hh ht) o ht

/-- A tag that the walk comes to. -/
structure TagAt (b : Blob) (o : ℕ) : Prop where
  rooted : Rooted b
  spot : Spot b o
  inside : offDtStruct b+o+4 ≤ totalsize b
  le : o ≤ (nextTag b o).next

theorem Reached.tagAt (b : Blob) (q : Search) (o : ℕ) (w : Walk) (h : Reached b q o w)
    (hh : checkHeader b = 0) (ht : (nextTag b o).tag ≠ .done) : TagAt b o := by
  have hr := along_rooted b o (h.along b q o w) hh ht
  have hs := h.spot b q o w hh
  have hle := hs.le
  obtain ⟨-, -, -, -, hin, -⟩ := nextTag_cases b o (by omega) ht
  exact ⟨hr, hs, hin, (nextTag_next b hr o (by omega) hs.aligned ht).1⟩

theorem checkOffset_neg (b : Blob) (o : ℕ) (h : TagAt b o) (tag : Tag) (ht : (nextTag b o).tag = tag) :
    isNeg (checkOffset b tag o) ↔ isNeg (nextTag b o).next := by
  have hle := h.le
  have hal := h.spot.aligned
  unfold checkOffset
  split_ifs with hc
  · refine ⟨fun _ => ?_, fun _ => by unfold isNeg errBadoffset err; omega⟩
    rcases hc with hc | hc | hc
    · unfold isNeg at hc ⊢
      omega
    · omega
    · exact absurd ht hc
  · exact Iff.rfl

theorem Sound.visit (b : Blob) (q : Search) (o : ℕ) (w : Walk) (h : Reached b q o w)
    (hh : checkHeader b = 0) (hs : Sound b q o w) : ∃ r, visit b q w o = some r := by
  unfold Fdt.visit
  simp only
  cases ht : (nextTag b o).tag with
  | prop =>
    have hat := h.tagAt b q o w hh (by rw [ht]; decide)
    have hneg := (checkOffset_neg b o hat .prop ht).not.mpr (hs.prop ht).1
    simp only
    rw [if_neg (show ¬isNeg (checkPropOffset b o) from hneg)]
    exact ⟨_, rfl⟩
  | nop => exact ⟨_, rfl⟩
  | done => exact ⟨_, rfl⟩
  | beginNode =>
    have hat := h.tagAt b q o w hh (by rw [ht]; decide)
    simp only
    split_ifs with hd
    · exact ⟨_, rfl⟩
    · have hneg := (checkOffset_neg b o hat .beginNode ht).not.mpr (hs.node ht hd)
      rw [getName, if_neg (by rw [hh]; simpa [checkNodeOffset] using hneg)]
      simp only
      by_cases hroom : q.pathLen ≤ w.path.length+2+(cstrAt b (w32 (offDtStruct b+o+4))).length
      · rw [if_pos hroom]
        exact ⟨_, rfl⟩
      · rw [if_neg hroom]
        exact ⟨_, rfl⟩
  | endNode =>
    obtain ⟨outer, stack, hst⟩ := List.exists_cons_of_ne_nil (hs.balanced ht)
    rw [hst]
    exact ⟨_, rfl⟩

/-! ## The end of the loop -/

/-- Every round has at least four bytes, and the walk does not leave the block. -/
theorem findLoop_returns (b : Blob) (q : Search) (hh : checkHeader b = 0)
    (hs : ∀ o w, Reached b q o w → Sound b q o w) (fuel o : ℕ) (w : Walk) (h : Reached b q o w)
    (hf : 4294967296 < o+fuel) : ∃ r, findLoop b q fuel o w = some r := by
  induction fuel generalizing o w with
  | zero =>
    have hle := (h.spot b q o w hh).le
    omega
  | succ fuel ih =>
    obtain ⟨r, hv⟩ := (hs o w h).visit b q o w h hh
    rw [findLoop, hv]
    cases r with
    | error e => exact ⟨_, rfl⟩
    | ok w' =>
      simp only
      by_cases ht : (nextTag b o).tag = .done
      · rw [if_pos ht]
        exact ⟨_, rfl⟩
      rw [if_neg ht]
      have hat := h.tagAt b q o w hh ht
      have hle := hat.spot.le
      have hlt : o < (nextTag b o).next := by
        by_cases hp : (nextTag b o).tag = .prop
        · exact lt_of_le_of_ne hat.le ((hs o w h).prop hp).2.symm
        · exact nextTag_moves b hat.rooted o (by omega) hat.spot.aligned ht hp
      exact ih _ w' (.step o w w' h hv ht) (by omega)

/-- The loop is left at an end tag. -/
theorem findLoop_last (b : Blob) (q : Search) (fuel o : ℕ) (w w' : Walk) (nx : ℕ)
    (h : Reached b q o w) (hl : findLoop b q fuel o w = some (.ok (w', nx))) :
    ∃ last wl, Reached b q last wl ∧ (nextTag b last).tag = .done ∧ nx = (nextTag b last).next ∧
      w' = mark b q wl true last nx := by
  induction fuel generalizing o w with
  | zero => cases hl
  | succ fuel ih =>
    obtain ⟨w1, hv, ⟨ht, hr⟩ | ⟨ht, hl⟩⟩ := findLoop_step b q fuel o w _ hl
    · cases hr
      simp only [visit, ht, Option.some_inj, Except.ok.injEq] at hv
      exact ⟨o, w, h, ht, rfl, hv.symm⟩
    · exact ih _ w1 (.step o w w1 h hv ht) hl

/-- Every round that is reached is part of a loop that is left. -/
theorem Reached.loop (b : Blob) (q : Search) (fuel o : ℕ) (w : Walk) (r : Except ℕ (Walk × ℕ))
    (hl : findLoop b q fuel 0 startWalk = some r) (h : Reached b q o w) :
    ∃ fuel', findLoop b q (fuel'+1) o w = some r := by
  have hpos : ∀ fuel o w, findLoop b q fuel o w = some r → ∃ fuel', fuel = fuel'+1 := by
    intro fuel o w hl
    cases fuel with
    | zero => cases hl
    | succ fuel => exact ⟨fuel, rfl⟩
  induction h with
  | start =>
    obtain ⟨fuel', rfl⟩ := hpos _ _ _ hl
    exact ⟨fuel', hl⟩
  | step o w w' _ hv ht ih =>
    obtain ⟨fuel', hl'⟩ := ih
    simp only [findLoop, hv, if_neg ht] at hl'
    obtain ⟨fuel'', rfl⟩ := hpos _ _ _ hl'
    exact ⟨fuel'', hl'⟩

/-- A property that leads back to itself is walked over for ever. -/
theorem findLoop_stuck (b : Blob) (q : Search) (o : ℕ) (ht : (nextTag b o).tag = .prop)
    (hn : (nextTag b o).next = o) (fuel : ℕ) (w : Walk) : findLoop b q fuel o w = none := by
  induction fuel generalizing w with
  | zero => rfl
  | succ fuel ih =>
    rw [findLoop]
    cases hv : visit b q w o with
    | none => rfl
    | some r =>
      cases r with
      | error e =>
        simp only [visit, ht] at hv
        split_ifs at hv
        cases hv
      | ok w' =>
        simp only [ht, hn, reduceCtorEq, if_false]
        exact ih w'

/-! ## The arrays -/

/-- The stack and the path are as long as their arrays allow. -/
structure Fits (q : Search) (w : Walk) : Prop where
  stack : w.stack.length ≤ fdtMaxDepth
  path : w.path.length < q.pathLen

theorem childPath_length (path name : Name) :
    (childPath path name).length = path.length+(if path.length ≠ 1 then 1 else 0)+name.length := by
  unfold childPath
  split_ifs
  · rw [List.length_append, List.length_append, List.length_singleton]
  · rw [List.length_append, Nat.add_zero]

theorem parentPath_length (path : Name) : (parentPath path).length ≤ path.length := by
  have h := (List.dropWhile_sublist (· ≠ (47 : UInt8)) (l := path.reverse)).length_le
  rw [parentPath, List.length_reverse, List.length_drop]
  rw [List.length_reverse] at h
  omega

theorem visit_fits (b : Blob) (q : Search) (w w' : Walk) (o : ℕ) (hw : Fits q w)
    (h : visit b q w o = some (.ok w')) : Fits q w' := by
  have hstack := hw.stack
  have hpath := hw.path
  obtain ⟨path, stack, want, taken, stopAt, rfl, -, -, hm⟩ := visit_mark b q w w' o h
  obtain ⟨f1, f2, -⟩ := mark_fields b q (w.moveTo path stack want) taken o stopAt
  have hfit : stack.length ≤ fdtMaxDepth ∧ path.length < q.pathLen := by
    rcases hm with ⟨rfl, rfl⟩ | ⟨name, rfl, rfl, hd, hroom⟩ | ⟨rfl, outer, hst⟩
    · exact ⟨hstack, hpath⟩
    · rw [childPath_length, List.length_cons]
      split_ifs <;> omega
    · rw [hst, List.length_cons] at hstack
      have := parentPath_length w.path
      omega
  exact ⟨by rw [f2]; exact hfit.1, by rw [f1]; exact hfit.2⟩

theorem Reached.fits (b : Blob) (q : Search) (o : ℕ) (w : Walk) (hp : 0 < q.pathLen)
    (h : Reached b q o w) : Fits q w := by
  induction h with
  | start => exact ⟨by simp [startWalk], hp⟩
  | step o w w' _ hv _ ih => exact visit_fits b q w w' o ih hv

theorem markAccesses_inBounds (q : Search) (w : Walk) (taken : Bool) :
    ∀ a ∈ markAccesses q w taken, a.InBounds q := by
  unfold markAccesses
  intro a ha
  cases taken with
  | true =>
    cases hs : w.start with
    | some s => simp [hs] at ha
    | none =>
      simp only [hs] at ha
      split_ifs at ha with hc
      · rw [List.mem_singleton.mp ha]
        change w.count-1 < q.maxRegions
        omega
      · simp at ha
  | false =>
    cases hs : w.start with
    | none => simp [hs] at ha
    | some s =>
      simp only [hs] at ha
      split_ifs at ha with hc
      · rw [List.mem_singleton.mp ha]
        exact hc
      · simp at ha

theorem accesses_inBounds (b : Blob) (q : Search) (w : Walk) (o : ℕ) (hw : Fits q w)
    (hb : (nextTag b o).tag = .endNode → w.stack ≠ []) :
    ∀ a ∈ accesses b q w o, a.InBounds q := by
  have hstack := hw.stack
  have hpath := hw.path
  intro a ha
  unfold accesses at ha
  cases ht : (nextTag b o).tag with
  | prop => simp [ht] at ha
  | nop => simp [ht] at ha
  | done => simp [ht] at ha
  | beginNode =>
    rw [ht] at ha
    simp only at ha
    by_cases hd : w.stack.length = fdtMaxDepth
    · simp [hd] at ha
    rw [if_neg hd] at ha
    have hslash : ∀ a ∈ (if w.path.length ≠ 1 then [Access.path w.path.length] else []),
        a = Access.path w.path.length := by
      split_ifs <;> simp
    have hlen : (if w.path.length ≠ 1 then [Access.path w.path.length] else []).length ≤ 1 := by
      split_ifs <;> simp
    cases hn : getName b o with
    | none => simp [hn] at ha
    | some p =>
      simp only [hn] at ha
      by_cases hroom : q.pathLen ≤ w.path.length+2+(cstrAt b p).length
      · simp [hroom] at ha
      rw [if_neg hroom] at ha
      rcases List.mem_append.mp ha with ha | ha
      · rcases List.mem_append.mp ha with ha | ha
        · rw [hslash a ha]
          exact hpath
        · obtain ⟨k, hk, rfl⟩ := List.mem_map.mp ha
          rw [List.mem_range] at hk
          change w.path.length+_+k < q.pathLen
          omega
      · rw [List.mem_singleton.mp ha]
        change (0 : ℤ) ≤ w.stack.length ∧ (w.stack.length : ℤ) < fdtMaxDepth
        omega
  | endNode =>
    rw [ht] at ha
    have hne := List.length_pos_iff.mpr (hb ht)
    have hparent := parentPath_length w.path
    rcases List.mem_cons.mp ha with rfl | ha
    · change (0 : ℤ) ≤ w.stack.length-1 ∧ (w.stack.length-1 : ℤ) < fdtMaxDepth
      omega
    rcases List.mem_cons.mp ha with rfl | ha
    · change (parentPath w.path).length < q.pathLen
      omega
    · obtain ⟨k, hk, rfl⟩ := List.mem_map.mp ha
      rw [List.mem_range] at hk
      change (parentPath w.path).length+k < q.pathLen
      omega

/-! ## The regions -/

/-- The stored regions are in the blob, and the open one starts there. -/
structure Kept (b : Blob) (q : Search) (w : Walk) (off : ℕ) : Prop where
  stored : ∀ k < w.count, k < q.maxRegions → offDtStruct b ≤ (w.region k).offset ∧
    (w.region k).offset+(w.region k).size ≤ totalsize b
  start : ∀ s, w.start = some s → s ≤ off ∧ offDtStruct b+s ≤ totalsize b

/-- A round that is taken keeps the stored regions and has a start. -/
theorem mark_taken (b : Blob) (q : Search) (w : Walk) (off stopAt : ℕ) (hk : Kept b q w off) :
    (∀ k < (mark b q w true off stopAt).count, k < q.maxRegions →
      offDtStruct b ≤ ((mark b q w true off stopAt).region k).offset ∧
      ((mark b q w true off stopAt).region k).offset+
        ((mark b q w true off stopAt).region k).size ≤ totalsize b) ∧
    ∃ s, (mark b q w true off stopAt).start = some s ∧ s ≤ off ∧
      (s = off ∨ offDtStruct b+s ≤ totalsize b) := by
  have hbase : offDtStruct b < 4294967296 := fdt32_lt b 8
  have htot : totalsize b < 4294967296 := fdt32_lt b 4
  unfold mark
  cases hs : w.start with
  | some s =>
    obtain ⟨h1, h2⟩ := hk.start s hs
    exact ⟨hk.stored, s, hs, h1, .inr h2⟩
  | none =>
    simp only
    split_ifs with hc
    · obtain ⟨h0, hmax, hend⟩ := hc
      obtain ⟨hlow, hhigh⟩ := hk.stored (w.count-1) (by omega) (by omega)
      rw [w32_of_lt _ (by omega)] at hend
      have hstart : minus (w.region (w.count-1)).offset (offDtStruct b) =
          (w.region (w.count-1)).offset-offDtStruct b := by
        unfold minus w32
        omega
      have hoff : off = (w.region (w.count-1)).offset+(w.region (w.count-1)).size-offDtStruct b := by
        rw [hend]
        unfold minus w32
        omega
      refine ⟨fun k hlt hkm => hk.stored k (by simp only at hlt; omega) hkm, _, rfl, ?_, .inr ?_⟩
      · rw [hstart]
        omega
      · rw [hstart]
        omega
    · exact ⟨hk.stored, off, rfl, le_rfl, .inl rfl⟩

theorem mark_kept (b : Blob) (q : Search) (w : Walk) (taken : Bool) (off next stopAt : ℕ)
    (hk : Kept b q w off) (hle : off ≤ next) (hin : offDtStruct b+off ≤ totalsize b)
    (hstop : taken = false → off ≤ stopAt ∧ offDtStruct b+stopAt ≤ totalsize b) :
    Kept b q (mark b q w taken off stopAt) next := by
  have htot : totalsize b < 4294967296 := fdt32_lt b 4
  cases taken with
  | true =>
    obtain ⟨hstored, s, hs, h1, h2⟩ := mark_taken b q w off stopAt hk
    refine ⟨hstored, ?_⟩
    intro s' hs'
    rw [hs, Option.some_inj] at hs'
    omega
  | false =>
    obtain ⟨h1, h2⟩ := hstop rfl
    unfold mark
    cases hs : w.start with
    | none =>
      simp only
      exact ⟨hk.stored, by simp [hs]⟩
    | some s =>
      obtain ⟨h3, h4⟩ := hk.start s hs
      simp only
      refine ⟨?_, by simp⟩
      intro k hlt hkm
      simp only at hlt ⊢
      by_cases hkc : k = w.count
      · subst hkc
        rw [if_pos hkm, Function.update_self, w32_of_lt _ (by omega)]
        simp only
        unfold minus w32
        omega
      · have hsame : (if w.count < q.maxRegions then Function.update w.region w.count
            ⟨w32 (offDtStruct b+s), minus stopAt s⟩ else w.region) k = w.region k := by
          split_ifs
          · exact Function.update_of_ne hkc _ _
          · rfl
        rw [hsame]
        exact hk.stored k (by omega) hkm

theorem Reached.kept (b : Blob) (q : Search) (o : ℕ) (w : Walk) (hh : checkHeader b = 0)
    (h : Reached b q o w) : Kept b q w o := by
  induction h with
  | start => exact ⟨by simp [startWalk], by simp [startWalk]⟩
  | step o w w' hr hv ht ih =>
    have hat := hr.tagAt b q o w hh ht
    have hin := hat.inside
    have hle := hat.le
    have htot : totalsize b < 4294967296 := fdt32_lt b 4
    have hspot := hat.spot.le
    obtain ⟨path, stack, want, taken, stopAt, rfl, hst, hend, -⟩ := visit_mark b q w w' o hv
    refine mark_kept b q _ taken o _ stopAt ⟨ih.stored, ih.start⟩ hle (by omega) ?_
    intro hf
    rcases hend hf with rfl | he
    · exact ⟨le_rfl, by omega⟩
    · obtain ⟨e, hn, -, -, h1, -, -, h2⟩ := nextTag_cases b o (by omega) ht
      have hal := hat.spot.aligned
      rw [h2 he, tagalign, w32_of_lt _ (by omega)] at hn
      rcases hst with rfl | rfl
      · omega
      · omega

/-! ## Safety -/

theorem findRegions_returns (b : Blob) (q : Search) :
    (∃ r, findRegions b q = some r) ↔ ∃ r, findLoop b q walkFuel 0 startWalk = some r := by
  unfold findRegions
  cases findLoop b q walkFuel 0 startWalk with
  | none => simp
  | some r =>
    cases r with
    | error e => simp
    | ok r =>
      simp only [Option.some.injEq, exists_eq', iff_true]
      split_ifs
      · exact ⟨_, rfl⟩
      · exact ⟨_, rfl⟩

theorem findRegions_loop (b : Blob) (q : Search) (count : ℕ) (region : ℕ → Region)
    (h : findRegions b q = some (.ok (count, region))) : ∃ w,
      findLoop b q walkFuel 0 startWalk = some (.ok (w, sizeDtStruct b)) ∧
      (count, region) = closeWalk b q w (sizeDtStruct b) := by
  unfold findRegions at h
  split at h
  case h_1 => cases h
  case h_2 => cases h
  case h_3 w nx hl =>
    split at h
    case isTrue => cases h
    case isFalse hn =>
      rw [not_not] at hn
      rw [hn] at hl h
      exact ⟨w, hl, by simpa using h.symm⟩

/-- What the function returns comes from the end tag. -/
theorem findRegions_last (b : Blob) (q : Search) (count : ℕ) (region : ℕ → Region)
    (h : findRegions b q = some (.ok (count, region))) : ∃ last wl, Reached b q last wl ∧
      (nextTag b last).tag = .done ∧ (nextTag b last).next = sizeDtStruct b ∧
      (count, region) = closeWalk b q (mark b q wl true last (sizeDtStruct b)) (sizeDtStruct b) := by
  obtain ⟨w, hl, heq⟩ := findRegions_loop b q count region h
  obtain ⟨last, wl, hr, ht, hn, hw⟩ := findLoop_last b q walkFuel 0 startWalk w _ .start hl
  rw [hw] at heq
  exact ⟨last, wl, hr, ht, hn.symm, heq⟩

/-- The region of the end tag. -/
theorem closeWalk_last (b : Blob) (q : Search) (w : Walk) (nx s : ℕ) (hs : w.start = some s)
    (hc : w.count < q.maxRegions) :
    (closeWalk b q w nx).2 w.count = ⟨w32 (offDtStruct b+s), minus nx s⟩ := by
  simp only [closeWalk, hs, Option.getD_some, if_pos hc, Function.update_self]

theorem closeWalk_stored (b : Blob) (q : Search) (w : Walk) (nx k : ℕ) (hk : k < w.count) :
    (closeWalk b q w nx).2 k = w.region k := by
  simp only [closeWalk]
  split_ifs
  · exact Function.update_of_ne hk.ne _ _
  · rfl

theorem Sound.inside (b : Blob) (q : Search) (hh : checkHeader b = 0)
    (hs : ∀ o w, Reached b q o w → Sound b q o w) (count : ℕ) (region : ℕ → Region)
    (h : findRegions b q = some (.ok (count, region))) (k : ℕ) (hk : k < count)
    (hm : k < q.maxRegions) : offDtStruct b ≤ (region k).offset ∧
      (region k).offset+(region k).size ≤ totalsize b := by
  obtain ⟨last, wl, hr, ht, hn, heq⟩ := findRegions_last b q count region h
  obtain ⟨hstored, s, hstart, hle, -⟩ := mark_taken b q wl last (sizeDtStruct b)
    (hr.kept b q last wl hh)
  have hspot := hr.spot b q last wl hh
  have hge := (nextTag_done b last hspot.le hspot.aligned ht).1
  have htot : totalsize b < 4294967296 := fdt32_lt b 4
  have hend := (hs last wl hr).ending ht hn
  rw [hn] at hge hend
  generalize mark b q wl true last (sizeDtStruct b) = w at *
  have hcount : count = w.count+1 := congrArg Prod.fst heq
  have hregion : region = (closeWalk b q w (sizeDtStruct b)).2 := congrArg Prod.snd heq
  rw [hregion]
  by_cases hkc : k = w.count
  · subst hkc
    have hroom := hend hm
    rw [closeWalk_last b q w _ s hstart hm, w32_of_lt _ (by omega)]
    simp only
    unfold minus w32
    omega
  · rw [closeWalk_stored b q w _ k (by omega)]
    exact hstored k (by omega) hm

/-- In a walk that ends the tags of every round are sound. -/
theorem Safe.sound (b : Blob) (q : Search) (hh : checkHeader b = 0) (hs : Safe b q) (o : ℕ) (w : Walk)
    (h : Reached b q o w) : Sound b q o w := by
  obtain ⟨r, hl⟩ := (findRegions_returns b q).mp hs.returns
  obtain ⟨fuel, hloop⟩ := h.loop b q walkFuel o w r hl
  have hvisit : visit b q w o ≠ none := by
    intro hv
    simp [findLoop, hv] at hloop
  refine ⟨?_, ?_, ?_, ?_⟩
  · intro ht hnil
    have hmem : Access.stack (w.stack.length-1) ∈ accesses b q w o := by simp [accesses, ht]
    have hin := hs.inBounds o w h true _ (List.mem_append_left _ hmem)
    rw [hnil] at hin
    have hlow : (0 : ℤ) ≤ ([] : List ℕ).length-1 := hin.1
    simp at hlow
  · intro ht
    have hat := h.tagAt b q o w hh (by rw [ht]; decide)
    refine ⟨?_, ?_⟩
    · intro hneg
      refine hvisit ?_
      have hc : isNeg (checkPropOffset b o) := (checkOffset_neg b o hat .prop ht).mpr hneg
      simp only [visit, ht]
      rw [if_pos hc]
    · intro hstay
      rw [findLoop_stuck b q o ht hstay] at hloop
      cases hloop
  · intro ht hd hneg
    have hat := h.tagAt b q o w hh (by rw [ht]; decide)
    refine hvisit ?_
    have hc : isNeg (checkNodeOffset b o) := (checkOffset_neg b o hat .beginNode ht).mpr hneg
    simp only [visit, ht, if_neg hd, getName]
    rw [if_pos (.inr hc)]
  · intro ht hn hroom
    have hr : r = .ok (mark b q w true o (nextTag b o).next, (nextTag b o).next) := by
      simp only [findLoop, visit, ht, if_true, Option.some_inj] at hloop
      exact hloop.symm
    have hfound : findRegions b q = some (.ok (closeWalk b q (mark b q w true o (nextTag b o).next)
        (nextTag b o).next)) := by
      simp only [findRegions, hl, hr]
      rw [if_neg (not_not.mpr hn)]
    obtain ⟨-, s, hstart, hle, -⟩ := mark_taken b q w o (nextTag b o).next (h.kept b q o w hh)
    have hspot := h.spot b q o w hh
    have hspotle := hspot.le
    obtain ⟨hge, hlt, -⟩ := nextTag_done b o hspot.le hspot.aligned ht
    have hbase : offDtStruct b < 4294967296 := fdt32_lt b 8
    have hin := hs.inside (closeWalk b q (mark b q w true o (nextTag b o).next) (nextTag b o).next).1
      (closeWalk b q (mark b q w true o (nextTag b o).next) (nextTag b o).next).2 hfound
      (mark b q w true o (nextTag b o).next).count (Nat.lt_succ_self _) hroom
    rw [closeWalk_last b q _ _ s hstart hroom] at hin
    simp only at hin
    unfold minus w32 at hin
    omega

theorem safe_iff (b : Blob) (q : Search) (hh : checkHeader b = 0) :
    Safe b q ↔ 0 < q.pathLen ∧ ∀ o w, Reached b q o w → Sound b q o w := by
  constructor
  · intro hs
    exact ⟨hs.first, fun o w h => hs.sound b q hh o w h⟩
  · rintro ⟨hp, hs⟩
    refine ⟨hp, ?_, ?_, ?_⟩
    · intro o w h taken a ha
      rcases List.mem_append.mp ha with ha | ha
      · exact accesses_inBounds b q w o (h.fits b q o w hp) (hs o w h).balanced a ha
      · exact markAccesses_inBounds q w taken a ha
    · refine (findRegions_returns b q).mpr ?_
      exact findLoop_returns b q hh hs walkFuel 0 startWalk .start (by unfold walkFuel; omega)
    · intro count region h k hk hm
      exact Sound.inside b q hh hs count region h k hk hm

/-- The rounds can be checked one after the other. -/
def soundRounds (b : Blob) (q : Search) : ℕ → ℕ → Walk → Bool
  | 0, _, _ => false
  | fuel+1, o, w =>
    let t := nextTag b o
    (t.tag = .endNode → w.stack ≠ []) && (t.tag = .prop → ¬isNeg t.next ∧ t.next ≠ o) &&
    (t.tag = .beginNode → w.stack.length ≠ fdtMaxDepth → ¬isNeg t.next) &&
    (t.tag = .done → t.next = sizeDtStruct b → (mark b q w true o t.next).count < q.maxRegions →
      offDtStruct b+sizeDtStruct b ≤ totalsize b) &&
    match visit b q w o with
    | some (.ok w') => t.tag = .done || soundRounds b q fuel t.next w'
    | _ => true

theorem Reached.sound (b : Blob) (q : Search) (fuel o : ℕ) (w : Walk)
    (hc : soundRounds b q fuel 0 startWalk = true) (h : Reached b q o w) : Sound b q o w := by
  have hall : ∃ fuel', soundRounds b q fuel' o w = true := by
    induction h with
    | start => exact ⟨fuel, hc⟩
    | step o w w' _ hv ht ih =>
      obtain ⟨fuel', h'⟩ := ih
      cases fuel' with
      | zero => cases h'
      | succ fuel' =>
        simp only [soundRounds, hv, ht, Bool.and_eq_true, decide_false, Bool.false_or] at h'
        exact ⟨fuel', h'.2⟩
  obtain ⟨fuel', h'⟩ := hall
  cases fuel' with
  | zero => cases h'
  | succ fuel' =>
    simp only [soundRounds, Bool.and_eq_true, decide_eq_true_eq] at h'
    obtain ⟨⟨⟨⟨h1, h2⟩, h3⟩, h4⟩, -⟩ := h'
    exact ⟨h1, h2, h3, h4⟩

/-- A tree with two nodes is walked over without harm. -/
theorem safe_twoNodes : Safe twoNodes (search [pathA] []) := by
  refine (safe_iff twoNodes _ (by decide +kernel)).mpr ⟨by decide, ?_⟩
  intro o w h
  exact h.sound twoNodes _ 16 o w (by decide +kernel)

/-- Only an end tag. -/
def loneEnd : Blob := ofWords
  [0xd00dfeed, 0x34, 0x28, 0x30, 0, 0x11, 0x10, 0, 0, 8, 2, 9]

/-- The stack is read in front of its first element. -/
theorem loneEnd_not_safe : checkHeader loneEnd = 0 ∧ ¬Safe loneEnd (search [pathA] []) := by
  refine ⟨by decide +kernel, ?_⟩
  intro hs
  have hmem : Access.stack (-1) ∈ accesses loneEnd (search [pathA] []) startWalk 0 := by
    decide +kernel
  have hin := hs.inBounds 0 startWalk .start true _ (List.mem_append_left _ hmem)
  exact absurd hin.1 (by decide)

end UBoot.Fdt
