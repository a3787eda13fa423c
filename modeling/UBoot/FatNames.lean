import UBoot.FatSlots

/-!
# Long names are read back

The slots that are written for a name stand in the clusters of the directory from
the last one down to the first, and both readers count them down and put the
characters together from the back.
-/

set_option autoImplicit false

namespace UBoot.Fat

open ByteStore

/-! ## One slot -/

section Slot

theorem padSlot_of_outside (os : List ℕ) (slot : Dirent) {i : ℕ}
    (h : ∀ o ∈ os, i ≠ o ∧ i ≠ o+1) : padSlot os slot i = slot i := by
  induction os generalizing slot with
  | nil => rfl
  | cons o os ih =>
    obtain ⟨h0, h1⟩ := h o (List.mem_cons_self ..)
    rw [padSlot, ih _ fun o' ho' => h o' (List.mem_cons_of_mem _ ho'),
      Function.update_of_ne h1, Function.update_of_ne h0]

theorem str2slot_of_outside (os : List ℕ) (name : List UInt8) (slot : Dirent) {i : ℕ}
    (h : ∀ o ∈ os, i ≠ o ∧ i ≠ o+1) : (str2slot os name slot).1 i = slot i := by
  induction os generalizing name slot with
  | nil => rfl
  | cons o os ih =>
    obtain ⟨h0, h1⟩ := h o (List.mem_cons_self ..)
    have hrest : ∀ o' ∈ os, i ≠ o' ∧ i ≠ o'+1 := fun o' ho' => h o' (List.mem_cons_of_mem _ ho')
    cases name with
    | nil =>
      refine (padSlot_of_outside os _ hrest).trans ?_
      rw [Function.update_of_ne h1, Function.update_of_ne h0]
    | cons c name => rw [str2slot, ih _ _ hrest, Function.update_of_ne h0]

theorem slot2str_congr {os : List ℕ} {slot slot' : Dirent} (h : ∀ o ∈ os, slot' o = slot o) :
    slot2str os slot' = slot2str os slot := by
  induction os with
  | nil => rfl
  | cons o os ih =>
    rw [slot2str, slot2str, h o (List.mem_cons_self ..),
      ih fun o' ho' => h o' (List.mem_cons_of_mem _ ho')]

theorem slot2str_length (os : List ℕ) (slot : Dirent) :
    (slot2str os slot).1.length ≤ os.length := by
  induction os with
  | nil => exact le_rfl
  | cons o os ih =>
    rw [slot2str]
    split
    · exact Nat.zero_le _
    · exact Nat.succ_le_succ ih

/-- The characters that a slot takes are read from it, and what is left is not. -/
theorem slot2str_str2slot (os : List ℕ) (hos : os.Pairwise fun o o' => o+1 < o')
    (name : List UInt8) (hname : ∀ c ∈ name, c ≠ 0) (slot : Dirent) :
    slot2str os (str2slot os name slot).1 = (name.take os.length, decide (name.length < os.length)) ∧
      (str2slot os name slot).2 = name.drop os.length := by
  induction os generalizing name slot with
  | nil =>
    refine ⟨?_, rfl⟩
    rw [List.length_nil, List.take_zero, decide_eq_false (Nat.not_lt_zero _)]
    rfl
  | cons o os ih =>
    obtain ⟨hfirst, hrest⟩ := List.pairwise_cons.1 hos
    have hout : ∀ o' ∈ os, o ≠ o' ∧ o ≠ o'+1 := fun o' ho' => by
      have := hfirst o' ho'
      omega
    cases name with
    | nil =>
      refine ⟨?_, rfl⟩
      rw [str2slot, slot2str, if_pos]
      · rfl
      refine (padSlot_of_outside os _ hout).trans ?_
      rw [Function.update_of_ne (by omega), Function.update_self]
    | cons c name =>
      obtain ⟨htext, hleft⟩ := ih hrest name (fun c' hc' => hname c' (List.mem_cons_of_mem _ hc'))
        (Function.update slot o c)
      have hc : (str2slot os name (Function.update slot o c)).1 o = c := by
        rw [str2slot_of_outside _ _ _ hout, Function.update_self]
      refine ⟨?_, hleft⟩
      rw [str2slot, slot2str, hc, if_neg (hname c (List.mem_cons_self ..)), htext]
      simp

end Slot

/-! ## The slots of a name -/

/-- The slots from the one with number `k+1` on, the first of which has the name's beginning. -/
inductive Slots : ℕ → List UInt8 → List Dirent → Prop
  | last {k : ℕ} {name : List UInt8} {slot : Dirent} {ended : Bool} : slotNumber slot = k+1 →
      slotId slot &&& lastLongEntry ≠ 0 → attr slot = attrVfat →
      slot2str nameBytes slot = (name, ended) → Slots k name [slot]
  | more {k : ℕ} {part name : List UInt8} {slot : Dirent} {rest : List Dirent} :
      slotNumber slot = k+1 → slotId slot &&& lastLongEntry = 0 →
      slot2str nameBytes slot = (part, false) → Slots (k+1) name rest →
      Slots k (part++name) (slot::rest)

/-- The number of slots for a name with `n` characters. -/
def slotCount (n : ℕ) : ℕ := max 1 ((n+12)/13)

theorem nameBytes_spaced : nameBytes.Pairwise fun o o' => o+1 < o' := by decide

theorem numbers (k : ℕ) (hk : k < 9) :
    ((UInt8.ofNat k+1) &&& 0xbf).toNat = k+1 ∧ (UInt8.ofNat k+1) &&& lastLongEntry = 0 ∧
      (((UInt8.ofNat k+1) ||| lastLongEntry) &&& 0xbf).toNat = k+1 ∧
      ((UInt8.ofNat k+1) ||| lastLongEntry) &&& lastLongEntry ≠ 0 ∧
      UInt8.ofNat k+1 = UInt8.ofNat (k+1) := by
  interval_cases k <;> decide

theorem slots_length (checksum : UInt8) (fuel : ℕ) (counter : UInt8) (name : List UInt8)
    (hname : ∀ c ∈ name, c ≠ 0) (hfuel : name.length < fuel) :
    (slots checksum fuel counter name).length = slotCount name.length := by
  induction fuel generalizing counter name with
  | zero => omega
  | succ fuel ih =>
    have hleft := (slot2str_str2slot nameBytes nameBytes_spaced name hname fun _ => 0).2
    have hlen : nameBytes.length = 13 := rfl
    unfold slots
    dsimp only
    rw [hleft, hlen]
    split_ifs with hend
    · have hdrop := List.length_drop (i := 13) (l := name)
      rw [List.isEmpty_iff.1 hend, List.length_nil] at hdrop
      rw [List.length_singleton, slotCount]
      omega
    · have hlong : 13 < name.length := by
        by_contra hle
        exact hend (List.isEmpty_iff.2 (List.drop_eq_nil_of_le (by omega)))
      rw [List.length_cons, ih _ _ (fun c hc => hname c (List.mem_of_mem_drop hc))
        (by rw [List.length_drop]; omega), List.length_drop, slotCount, slotCount]
      omega

/-- What is written for a name of nine slots at most. -/
theorem slots_spec (checksum : UInt8) (fuel k : ℕ) (name : List UInt8)
    (hname : ∀ c ∈ name, c ≠ 0) (hfuel : name.length < fuel) (hk : k < 9)
    (hlen : 13*k+name.length ≤ 117) :
    Slots k name (slots checksum fuel (UInt8.ofNat k) name) := by
  induction fuel generalizing k name with
  | zero => omega
  | succ fuel ih =>
    obtain ⟨htext, hleft⟩ := slot2str_str2slot nameBytes nameBytes_spaced name hname fun _ => 0
    have h13 : nameBytes.length = 13 := rfl
    obtain ⟨hnum, hmore, hlast, hflag, hsucc⟩ := numbers k hk
    -- the characters are not at the bytes that are set afterwards
    have houter : ∀ (a b c : UInt8) (slot : Dirent), slot2str nameBytes (Function.update
        (Function.update (Function.update slot 0 a) 11 b) 13 c) = slot2str nameBytes slot :=
      fun a b c slot => slot2str_congr fun o ho => by
        have hne : o ≠ 13 ∧ o ≠ 11 ∧ o ≠ 0 := by
          revert o
          decide
        rw [Function.update_of_ne hne.1, Function.update_of_ne hne.2.1,
          Function.update_of_ne hne.2.2]
    have hfirst : ∀ (a : UInt8) (slot : Dirent),
        slot2str nameBytes (Function.update slot 0 a) = slot2str nameBytes slot :=
      fun a slot => slot2str_congr fun o ho => Function.update_of_ne (by revert o; decide) _ _
    unfold slots
    dsimp only
    rw [hleft, h13]
    split_ifs with hend
    · have hall : name.take 13 = name := by
        have := List.take_append_drop 13 name
        rwa [List.isEmpty_iff.1 hend, List.append_nil] at this
      refine @Slots.last _ _ _ (decide (name.length < 13)) hlast hflag rfl ?_
      rw [hfirst, houter, htext, h13, hall]
    · have hlong : 13 < name.length := by
        by_contra hle
        exact hend (List.isEmpty_iff.2 (List.drop_eq_nil_of_le (by omega)))
      have hdrop : (name.drop 13).length = name.length-13 := List.length_drop
      have hrest := ih (k+1) (name.drop 13) (fun c hc => hname c (List.mem_of_mem_drop hc))
        (by omega) (by omega) (by omega)
      rw [hsucc]
      refine List.take_append_drop 13 name ▸ @Slots.more _ (name.take 13) _ _ _ ?_ ?_ ?_ ?_
      · exact hsucc ▸ hnum
      · exact hsucc ▸ hmore
      · rw [houter, List.take_append_drop, htext, h13, decide_eq_false (by omega)]
      · rwa [List.take_append_drop]

theorem Slots.length_pos {k : ℕ} {name : List UInt8} {ss : List Dirent} (h : Slots k name ss) :
    0 < ss.length := by
  cases h <;> exact Nat.succ_pos _

/-! ## Slots in a block -/

/-- Entries stand one after the other from a place on. -/
def Stands (block : Block) (p : ℕ) (ws : List Dirent) : Prop :=
  ∀ j (h : j < ws.length), block (p+j) = ws[j]

section Stands

variable {block : Block} {p : ℕ}

theorem stands_append {as bs : List Dirent} :
    Stands block p (as++bs) ↔ Stands block p as ∧ Stands block (p+as.length) bs := by
  unfold Stands
  constructor
  · intro h
    refine ⟨fun j hj => ?_, fun j hj => ?_⟩
    · rw [h j (by rw [List.length_append]; omega), List.getElem_append_left hj]
    · have := h (as.length+j) (by rw [List.length_append]; omega)
      rw [← Nat.add_assoc] at this
      rw [this, List.getElem_append_right (by omega)]
      simp only [Nat.add_sub_cancel_left]
  · rintro ⟨ha, hb⟩ j hj
    rw [List.length_append] at hj
    by_cases hlt : j < as.length
    · rw [ha j hlt, List.getElem_append_left hlt]
    · obtain ⟨i, rfl⟩ := Nat.exists_eq_add_of_le (not_lt.1 hlt)
      rw [← Nat.add_assoc, hb i (by omega), List.getElem_append_right (by omega)]
      simp only [Nat.add_sub_cancel_left]

theorem stands_singleton {slot : Dirent} : Stands block p [slot] ↔ block p = slot := by
  unfold Stands
  constructor
  · exact fun h => h 0 Nat.zero_lt_one
  · intro h j hj
    rw [List.length_singleton] at hj
    obtain rfl : j = 0 := by omega
    exact h

/-- The numbers of the slots as they are written, from the number of slots down. -/
theorem Slots.number {k : ℕ} {name : List UInt8} {ss : List Dirent} (h : Slots k name ss) {j : ℕ}
    (hj : j < ss.reverse.length) : slotNumber ss.reverse[j] = k+ss.length-j := by
  induction h generalizing j with
  | last hnum =>
    obtain rfl : j = 0 := Nat.lt_one_iff.1 hj
    exact hnum
  | @more k part name slot rest hnum _ _ _ ih =>
    have hlen : rest.reverse.length = rest.length := List.length_reverse
    simp only [List.reverse_cons, List.length_cons, List.length_append, List.length_nil] at hj ⊢
    by_cases hlt : j < rest.reverse.length
    · rw [List.getElem_append_left hlt, ih hlt]
      omega
    · obtain rfl : j = rest.reverse.length := by omega
      rw [List.getElem_concat_length rfl, hnum]
      omega

/-- The slot with the highest number is marked. -/
theorem Slots.marked {k : ℕ} {name : List UInt8} {ss : List Dirent} (h : Slots k name ss)
    (h0 : 0 < ss.reverse.length) :
    slotId ss.reverse[0] &&& lastLongEntry ≠ 0 ∧ attr ss.reverse[0] = attrVfat := by
  induction h with
  | last _ hflag hattr _ => exact ⟨hflag, hattr⟩
  | @more k part name slot rest _ _ _ hrest ih =>
    have hpos : 0 < rest.reverse.length := by
      rw [List.length_reverse]
      exact hrest.length_pos
    simp only [List.reverse_cons, List.getElem_append_left hpos]
    exact ih hpos

theorem Slots.text {k : ℕ} {name : List UInt8} {ss : List Dirent} (h : Slots k name ss)
    (hs : Stands block p ss.reverse) : Fat.text block (p+ss.length) = name := by
  induction h with
  | @last k name slot ended _ hflag _ htext =>
    rw [List.reverse_singleton, stands_singleton] at hs
    rw [List.length_singleton, Fat.text, hs, htext]
    dsimp only
    rw [if_pos (.inr hflag), List.append_nil]
  | @more k part name slot rest _ hflag htext _ ih =>
    rw [List.reverse_cons, stands_append, stands_singleton, List.length_reverse] at hs
    rw [List.length_cons, ← Nat.add_assoc, Fat.text, hs.2, htext]
    dsimp only
    rw [if_neg (by simp [hflag]), ih hs.1]

/-- The same where the first slots stand at the beginning of another block. -/
theorem Slots.text_across {block2 : Block} {k n : ℕ} {name : List UInt8} {ss : List Dirent}
    (h : Slots k name ss) (hn : n < ss.length) (h2 : Stands block2 0 (ss.take n).reverse)
    (h1 : Stands block p (ss.drop n).reverse) :
    textRest block2 n++Fat.text block (p+(ss.length-n)) = name := by
  induction n generalizing k name ss with
  | zero => exact h.text h1
  | succ n ih =>
    cases h with
    | last => exact absurd hn (by simp)
    | @more _ part name slot rest _ _ htext hrest =>
      rw [List.length_cons] at hn ⊢
      have hlen : (rest.take n).length = n := List.length_take_of_le (by omega)
      rw [List.take_succ_cons, List.reverse_cons, stands_append, stands_singleton, List.length_reverse,
        hlen, Nat.zero_add] at h2
      rw [List.drop_succ_cons] at h1
      rw [textRest, h2.2, htext, Nat.add_sub_add_right, List.append_assoc,
        ih hrest (by omega) h2.1 h1]

end Stands

/-! ## The readers' loops -/

section Loops

variable {block : Block}

theorem matchSlots_of_numbers {limit slotptr counter : ℕ}
    (h : ∀ j, j < counter → slotptr+j < limit → slotNumber (block (slotptr+j)) = counter-j) :
    matchSlots block limit slotptr counter =
      some (slotptr+min counter (limit-slotptr), counter-min counter (limit-slotptr)) := by
  induction counter generalizing slotptr with
  | zero =>
    rw [matchSlots, Nat.zero_min]
    rfl
  | succ counter ih =>
    rw [matchSlots]
    split_ifs with hlt hnum
    · exact absurd (h 0 (Nat.succ_pos _) hlt) hnum
    · rw [ih fun j hj hj' => by
        have := h (j+1) (by omega) (by omega)
        rw [show slotptr+1+j = slotptr+(j+1) by omega, this]
        omega]
      congr 2 <;> omega
    · congr 2 <;> omega

theorem matchSlots_some {limit slotptr counter q k : ℕ}
    (h : matchSlots block limit slotptr counter = some (q, k)) : q+k = slotptr+counter ∧ slotptr ≤ q := by
  induction counter generalizing slotptr with
  | zero =>
    cases Option.some.inj h
    exact ⟨rfl, le_rfl⟩
  | succ counter ih =>
    rw [matchSlots] at h
    split_ifs at h
    · obtain ⟨h1, h2⟩ := ih h
      omega
    · cases Option.some.inj h
      exact ⟨rfl, le_rfl⟩

theorem matchRest_of_numbers {slotptr counter : ℕ}
    (h : ∀ j, j < counter → slotNumber (block (slotptr+j)) = counter-j) :
    matchRest block slotptr counter = some (slotptr+counter) := by
  induction counter generalizing slotptr with
  | zero => rfl
  | succ counter ih =>
    have hfirst : slotNumber (block slotptr) = counter+1 := h 0 (Nat.succ_pos _)
    rw [matchRest, if_neg (not_not.2 hfirst), ih fun j hj => by
      have := h (j+1) (by omega)
      rw [show slotptr+1+j = slotptr+(j+1) by omega, this]
      omega]
    congr 1
    omega

theorem matchRest_some {slotptr counter q : ℕ} (h : matchRest block slotptr counter = some q) :
    q = slotptr+counter := by
  induction counter generalizing slotptr with
  | zero => exact (Option.some.inj h).symm
  | succ counter ih =>
    rw [matchRest] at h
    split_ifs at h
    have := ih h
    omega

theorem textRest_length (n : ℕ) : (textRest block n).length ≤ 13*n := by
  induction n with
  | zero => exact le_rfl
  | succ n ih =>
    have := slot2str_length nameBytes (block n)
    rw [show nameBytes.length = 13 from rfl] at this
    rw [textRest, List.length_append]
    omega

/-- The characters up to a slot that is marked. -/
theorem text_length {p : ℕ} (hp : slotId (block p) &&& lastLongEntry ≠ 0) (n : ℕ) :
    (Fat.text block (p+(n+1))).length ≤ 13*(n+1) := by
  induction n with
  | zero =>
    have := slot2str_length nameBytes (block p)
    rw [show nameBytes.length = 13 from rfl] at this
    rw [← Nat.add_assoc, Nat.add_zero, Fat.text, if_pos (.inr hp), List.append_nil]
    omega
  | succ n ih =>
    have := slot2str_length nameBytes (block (p+(n+1)))
    rw [show nameBytes.length = 13 from rfl] at this
    rw [← Nat.add_assoc, Fat.text, List.length_append]
    split_ifs
    · rw [List.length_nil]
      omega
    · omega

theorem cleanName_length (l : List UInt8) : (cleanName l).length ≤ l.length := by
  cases l with
  | nil => exact le_rfl
  | cons c l =>
    rw [cleanName]
    split_ifs <;> simp [downcase]

/-- A name is left in lower case unless it begins with one of two characters. -/
theorem cleanName_eq_iff (l : List UInt8) :
    cleanName l = downcase l ↔ ∀ c ∈ l.head?, c ≠ 0x05 ∧ c ≠ 0xe5 := by
  cases l with
  | nil => simp [cleanName, downcase]
  | cons c l =>
    rw [cleanName, List.head?_cons]
    by_cases he5 : c = 0xe5
    · rw [if_pos he5]
      simp [downcase, he5]
    · by_cases h05 : c = 0x05
      · rw [if_neg he5, if_pos h05]
        simp [downcase, h05, toLower]
      · rw [if_neg he5, if_neg h05]
        simp [h05, he5]

end Loops

end UBoot.Fat
