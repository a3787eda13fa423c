import UBoot.ReadlineHandOn

/-!
# The history as a ring

The lines of the history lie on a ring of twenty places, of which one stays free. The cursor
on it is put back when a line is entered, but not when one is given up with control C, so a
prompt after that goes on where the last one stood.
-/

set_option autoImplicit false

namespace UBoot.Readline

/-- The lines that the history keeps, the last one first. -/
def entries (returned : List Bytes) : List Bytes :=
  ((returned.map (·.takeWhile (· ≠ 0))).filter (fun s => s ≠ [] ∧ s.head? ≠ some 33)).reverse

/-- How far back one can go. -/
def reach (es : List Bytes) : ℕ := min es.length (histMax-1)

def lineAt (es : List Bytes) (p : ℕ) : Bytes := if p = 0 then [] else es.getD (p-1) []

/-- How far back the keys have gone, since a line was entered last. -/
def advance (s : Desk × ℕ) (c : UInt8) : Desk × ℕ :=
  (s.1.type c, match (decode s.1.editor.escape c).2 with
    | .prev => if s.2 < reach (entries s.1.returned) then s.2+1 else s.2
    | .next => s.2-1
    | .enter => 0
    | _ => s.2)

def position (keys : Bytes) : ℕ := (keys.foldl advance (.start, 0)).2

/-! ## The ring -/

structure Ring (h : History) (es : List Bytes) (p : ℕ) : Prop where
  size : h.list.length = 20
  addIdx : h.addIdx = es.length % 20
  max : h.max = min es.length 19
  lines : ∀ i, i < es.length → i < 20 → h.list[(es.length-1-i) % 20]? = es[i]?
  pos : p ≤ min es.length 19
  cur : h.cur = ((es.length-p) % 20 : ℕ) ∨ es = [] ∧ h.cur = -1

theorem ring_start : Ring histInit [] 0 :=
  ⟨rfl, rfl, rfl, fun i hi => absurd hi (Nat.not_lt_zero i), le_refl 0, Or.inr ⟨rfl, rfl⟩⟩

theorem Ring.prev {h : History} {es : List Bytes} {p : ℕ} (hr : Ring h es p) :
    (p < reach es → (histPrev h).2 = some (lineAt es (p+1)) ∧ Ring (histPrev h).1 es (p+1)) ∧
    (¬p < reach es → histPrev h = (h, none)) := by
  have hpos := hr.pos
  have hmax := hr.max
  have hadd := hr.addIdx
  unfold reach histMax
  rcases hr.cur with hcur | ⟨rfl, hcur⟩
  · have hnew : (if h.cur-1 < 0 then (h.max : ℤ) else h.cur-1) =
        if es.length-p = 0 then (es.length : ℤ) else ((es.length-(p+1)) % 20 : ℕ) := by
      rw [hcur, hmax]
      split_ifs <;> omega
    have hneg : ¬h.cur < 0 := by omega
    constructor
    · intro hp
      have hidx : (if h.cur-1 < 0 then (h.max : ℤ) else h.cur-1) = ((es.length-(p+1)) % 20 : ℕ) := by
        rw [hnew, if_neg (by omega)]
      have hline : h.list.getD ((es.length-(p+1)) % 20) [] = lineAt es (p+1) := by
        have := hr.lines p (by omega) (by omega)
        rw [List.getD_eq_getElem?_getD, show es.length-(p+1) = es.length-1-p by omega, this, lineAt,
          if_neg (Nat.succ_ne_zero p), Nat.add_sub_cancel, List.getD_eq_getElem?_getD]
      have heq : histPrev h = ({ h with cur := ((es.length-(p+1)) % 20 : ℕ) },
          some (lineAt es (p+1))) := by
        rw [histPrev, if_neg hneg]
        dsimp only
        rw [hidx, if_neg (by rw [hadd]; omega), Int.toNat_natCast, hline]
      rw [heq]
      exact ⟨rfl, hr.size, hr.addIdx, hr.max, hr.lines, by omega, Or.inl rfl⟩
    · intro hp
      rw [histPrev, if_neg hneg]
      dsimp only
      rw [hnew, if_pos]
      rw [hadd]
      split_ifs <;> omega
  · constructor
    · intro hp
      exact absurd hp (by simp)
    · intro hp
      rw [histPrev, if_pos (by omega)]

theorem Ring.next {h : History} {es : List Bytes} {p : ℕ} (hr : Ring h es p) :
    (0 < p → (histNext h).2 = some (lineAt es (p-1)) ∧ Ring (histNext h).1 es (p-1)) ∧
    (¬0 < p → histNext h = (h, none)) := by
  have hpos := hr.pos
  have hmax := hr.max
  have hadd := hr.addIdx
  rcases hr.cur with hcur | ⟨rfl, hcur⟩
  · have hneg : ¬h.cur < 0 := by omega
    constructor
    · intro hp
      have hidx : (if (h.max : ℤ) < h.cur+1 then (0 : ℤ) else h.cur+1) =
          ((es.length-(p-1)) % 20 : ℕ) := by
        rw [hcur, hmax]
        split_ifs <;> omega
      have hother : ¬h.cur = h.addIdx := by
        rw [hcur, hadd]
        omega
      have heq : histNext h = ({ h with cur := ((es.length-(p-1)) % 20 : ℕ) },
          some (lineAt es (p-1))) := by
        rw [histNext, if_neg hneg, if_neg hother]
        dsimp only
        rw [hidx, Int.toNat_natCast]
        by_cases hone : p = 1
        · subst hone
          rw [if_pos (by rw [hadd]; omega)]
          rfl
        · have := hr.lines (p-2) (by omega) (by omega)
          rw [if_neg (by rw [hadd]; omega), List.getD_eq_getElem?_getD,
            show es.length-(p-1) = es.length-1-(p-2) by omega, this, lineAt, if_neg (by omega),
            List.getD_eq_getElem?_getD, show p-1-1 = p-2 by omega]
      rw [heq]
      exact ⟨rfl, hr.size, hr.addIdx, hr.max, hr.lines, by omega, Or.inl rfl⟩
    · intro hp
      rw [histNext, if_neg hneg, if_pos]
      rw [hcur, hadd, show p = 0 by omega]
      rfl
  · have hzero : p = 0 := by
      rw [List.length_nil] at hpos
      omega
    constructor
    · intro hp
      omega
    · intro hp
      rw [histNext, if_pos (by omega)]

/-- A line that is kept takes the free place. -/
theorem Ring.add {h : History} {es : List Bytes} {p : ℕ} (hr : Ring h es p) {s : Bytes}
    (hs : s.length ≤ cbsize) : ∃ h', creadAddToHist h s = some h' ∧
      Ring { h' with cur := h'.addIdx } (s::es) 0 := by
  have hsize := hr.size
  have hmax := hr.max
  have hadd := hr.addIdx
  have haddIdx : (if histMax ≤ h.addIdx+1 then 0 else h.addIdx+1) = (es.length+1) % 20 := by
    rw [hadd, histMax]
    split_ifs <;> omega
  have heq : creadAddToHist h s = some ⟨h.list.set (es.length % 20) s, (es.length+1) % 20,
      min (es.length+1) 19, h.cur⟩ := by
    rw [creadAddToHist, if_neg (by omega)]
    dsimp only
    rw [haddIdx, hadd]
    congr 2
    rw [hmax]
    split_ifs <;> omega
  refine ⟨_, heq, ?_, rfl, rfl, ?_, Nat.zero_le _, Or.inl ?_⟩
  · rw [List.length_set]
    exact hsize
  · intro i hi hlt
    dsimp only
    rw [List.length_cons] at hi ⊢
    cases i with
    | zero =>
      rw [show es.length+1-1-0 = es.length from rfl, List.getElem?_set_self (by omega)]
      rfl
    | succ i =>
      rw [List.getElem?_set_ne (by omega), List.getElem?_cons_succ, ← hr.lines i (by omega) (by omega)]
      congr 2
      omega
  · rfl

/-- When nothing is kept only the cursor goes back. -/
theorem Ring.reset {h : History} {es : List Bytes} {p : ℕ} (hr : Ring h es p) :
    Ring { h with cur := h.addIdx } es 0 :=
  ⟨hr.size, hr.addIdx, hr.max, hr.lines, Nat.zero_le _, Or.inl (congrArg _ hr.addIdx)⟩

/-! ## Every session keeps the ring -/

theorem entries_append (returned : List Bytes) (line : Bytes) : entries (returned ++ [line]) =
    if line.takeWhile (· ≠ 0) ≠ [] ∧ (line.takeWhile (· ≠ 0)).head? ≠ some 33 then
      line.takeWhile (· ≠ 0)::entries returned
    else entries returned := by
  unfold entries
  rw [List.map_append, List.filter_append, List.reverse_append, List.map_singleton]
  generalize line.takeWhile (· ≠ 0) = s
  by_cases h : s ≠ [] ∧ s.head? ≠ some 33
  · rw [if_pos h, List.filter_singleton, decide_eq_true h]
    rfl
  · rw [if_neg h, List.filter_singleton, decide_eq_false h]
    rfl

theorem remember_ring {h : History} {returned : List Bytes} {p : ℕ}
    (hr : Ring h (entries returned) p) {line : Bytes} (hlen : line.length ≤ cbsize) :
    Ring (remember h line) (entries (returned ++ [line])) 0 := by
  rw [entries_append, remember]
  split_ifs with hkeep
  · obtain ⟨h', hadd, hr'⟩ := hr.add ((List.takeWhile_sublist _).length_le.trans hlen)
    rw [hadd]
    exact hr'
  · exact hr.reset

theorem advance_desk (keys : Bytes) : (keys.foldl advance (.start, 0)).1 = desk keys := by
  induction keys using List.reverseRecOn with
  | nil => rfl
  | append_singleton keys c ih =>
    rw [List.foldl_concat, show desk (keys ++ [c]) = (desk keys).type c from List.foldl_concat .., ← ih]
    rfl

theorem position_append (keys : Bytes) (c : UInt8) : position (keys ++ [c]) =
    (advance (desk keys, position keys) c).2 := by
  rw [position, List.foldl_concat]
  exact congrArg (fun s => (advance s c).2) (Prod.ext (advance_desk keys) rfl)

/-- One key on the ring. -/
theorem advance_ring {d : Desk} {p : ℕ} (hr : Ring d.hist (entries d.returned) p)
    (hlen : d.editor.text.length ≤ cbsize) (c : UInt8) :
    Ring (d.type c).hist (entries (d.type c).returned) (advance (d, p) c).2 := by
  unfold advance Desk.type typed
  dsimp only
  have hback := hr.prev
  have hforth := hr.next
  cases (decode d.editor.escape c).2 with
  | prev =>
    by_cases hp : p < reach (entries d.returned)
    · simp only [perform, if_pos hp]
      exact (hback.1 hp).2
    · simp only [perform, if_neg hp, hback.2 hp]
      exact hr
  | next =>
    by_cases hp : 0 < p
    · exact (hforth.1 hp).2
    · simp only [perform, hforth.2 hp]
      rw [show p-1 = p by omega]
      exact hr
  | enter => exact remember_ring hr hlen
  | abort =>
    simp only [perform, entries_append]
    rw [if_neg (fun h => h.1 rfl)]
    exact hr
  | _ => exact hr

theorem session_ring (shell : ℕ → Choice) (hfirst : (shell 0).ps1 = true) (keys : Bytes)
    (h9 : (9 : UInt8) ∉ keys) (hfit : AllFit shell (desk keys).returned) :
    Ring (desk keys).hist (entries (desk keys).returned) (position keys) := by
  induction keys using List.reverseRecOn with
  | nil => exact ring_start
  | append_singleton keys c ih =>
    rw [List.mem_append, not_or] at h9
    have hfit' := allFit_initial hfit (desk_initial (List.prefix_append keys [c]))
    obtain ⟨s, -, hstep⟩ := (session_inStep shell hfirst keys h9.1).1 hfit'
    have hlen : (desk keys).editor.text.length ≤ cbsize := by
      rw [Editor.text, List.length_append, ← hstep.line.eolNum]
      exact hstep.line.room
    rw [position_append, show desk (keys ++ [c]) = (desk keys).type c from List.foldl_concat ..]
    exact advance_ring (ih h9.1 hfit') hlen c

/-! ## Going back and forth -/

/-- What the keys ask for, without the keys inside of a sequence. -/
@[grind]
def actions : Escape → Bytes → List Action
  | _, [] => []
  | e, c::cs =>
    if (decode e c).2 = .wait then actions (decode e c).1 cs
    else (decode e c).2::actions (decode e c).1 cs

/-- No key has been pressed since the last line was ended. -/
def Fresh (keys : Bytes) : Prop :=
  keys = [] ∨ ∃ before c, keys = before ++ [c] ∧
    (decode (desk before).editor.escape c).2 ∈ [Action.enter, Action.abort]

theorem fresh_editor {keys : Bytes} (h : Fresh keys) : (desk keys).editor = .blank := by
  rcases h with rfl | ⟨before, c, rfl, hc⟩
  · rfl
  · rw [show desk (before ++ [c]) = (desk before).type c from List.foldl_concat .., Desk.type, typed]
    rcases List.mem_cons.mp hc with hc | hc
    · rw [hc]
      rfl
    · rw [List.mem_singleton.mp hc]
      rfl

/-- The claim for one fresh prompt: what is shown after `i` steps back and `j` forth. -/
def Recalls (shell : ℕ → Choice) (keys : Bytes) : Prop :=
  ∀ more i j, actions .idle more = List.replicate i .prev ++ List.replicate j .next →
    ∃ s, session shell (keys ++ more) = some s ∧ s.line.buf.take s.line.eolNum =
      lineAt (entries (desk keys).returned) (min i (reach (entries (desk keys).returned))-j)

/-- One step back or forth. -/
def walkStep (es : List Bytes) (p : ℕ) : Action → ℕ
  | .prev => if p < reach es then p+1 else p
  | .next => p-1
  | _ => p

theorem walk_steps (es : List Bytes) (p i j : ℕ) (hp : p ≤ reach es) :
    (List.replicate i Action.prev ++ List.replicate j Action.next).foldl (walkStep es) p =
      min (p+i) (reach es)-j := by
  have hback : ∀ p, p ≤ reach es →
      (List.replicate i Action.prev).foldl (walkStep es) p = min (p+i) (reach es) := by
    induction i with
    | zero =>
      intro p hp
      exact (min_eq_left hp).symm
    | succ i ih =>
      intro p hp
      rw [List.replicate_succ, List.foldl_cons, walkStep]
      split_ifs with hlt
      · rw [ih (p+1) hlt]
        omega
      · rw [ih p hp]
        omega
  have hforth : ∀ p, (List.replicate j Action.next).foldl (walkStep es) p = p-j := by
    induction j with
    | zero => exact fun p => rfl
    | succ j ih =>
      intro p
      rw [List.replicate_succ, List.foldl_cons, walkStep, ih]
      omega
  rw [List.foldl_append, hback p hp, hforth]

/-- The text is the line that the cursor of the history stands at. -/
structure Stands (d : Desk) (es : List Bytes) (p : ℕ) : Prop where
  text : d.editor.text = lineAt es p
  ring : Ring d.hist es p

theorem show_some (e : Editor) (line : Bytes) : (e.show (some line)).text = line :=
  List.append_nil line

theorem stands_step {d : Desk} {es : List Bytes} {p : ℕ} (h : Stands d es p) {c : UInt8} {a : Action}
    (hdec : (decode d.editor.escape c).2 = a) (ha : a ∈ [Action.prev, .next, .wait]) :
    Stands (d.type c) es (walkStep es p a) ∧ (d.type c).returned = d.returned ∧
      (d.type c).editor.escape = (decode d.editor.escape c).1 := by
  have hback := h.ring.prev
  have hforth := h.ring.next
  have hshow : ∀ (e : Editor) (line : Option Bytes), (e.show line).escape = e.escape := by
    intro e line
    cases line <;> rfl
  unfold Desk.type typed
  rw [hdec]
  simp only [List.mem_cons, List.not_mem_nil, or_false] at ha
  rcases ha with rfl | rfl | rfl
  · refine ⟨?_, rfl, hshow _ _⟩
    by_cases hp : p < reach es
    · obtain ⟨hline, hring⟩ := hback.1 hp
      simp only [perform, hline, walkStep, if_pos hp]
      exact ⟨show_some _ _, hring⟩
    · simp only [perform, hback.2 hp, walkStep, if_neg hp]
      exact ⟨h.text, h.ring⟩
  · refine ⟨?_, rfl, hshow _ _⟩
    by_cases hp : 0 < p
    · obtain ⟨hline, hring⟩ := hforth.1 hp
      simp only [perform, hline, walkStep]
      exact ⟨show_some _ _, hring⟩
    · simp only [perform, hforth.2 hp, walkStep, show p-1 = p by omega]
      exact ⟨h.text, h.ring⟩
  · exact ⟨⟨h.text, h.ring⟩, rfl, rfl⟩

/-- By induction on the keys. -/
theorem stands_walk (more : Bytes) {d : Desk} {es : List Bytes} {p : ℕ} (h : Stands d es p)
    (hall : ∀ a ∈ actions d.editor.escape more, a ∈ [Action.prev, .next]) :
    Stands (more.foldl Desk.type d) es ((actions d.editor.escape more).foldl (walkStep es) p) ∧
      (more.foldl Desk.type d).returned = d.returned := by
  induction more generalizing d p with
  | nil => exact ⟨h, rfl⟩
  | cons c more ih =>
    rw [actions] at hall ⊢
    rw [List.foldl_cons]
    by_cases hwait : (decode d.editor.escape c).2 = .wait
    · rw [if_pos hwait] at hall ⊢
      obtain ⟨hstep, hret, hesc⟩ := stands_step h hwait (by decide)
      rw [← hesc] at hall ⊢
      obtain ⟨hstands, hreturned⟩ := ih hstep hall
      exact ⟨hstands, hreturned.trans hret⟩
    · rw [if_neg hwait] at hall ⊢
      have ha := hall _ List.mem_cons_self
      obtain ⟨hstep, hret, hesc⟩ := stands_step h rfl
        (List.mem_append_left [Action.wait] ha : _ ∈ [Action.prev, .next] ++ [Action.wait])
      rw [← hesc] at hall ⊢
      obtain ⟨hstands, hreturned⟩ := ih hstep (fun a ha => hall a (List.mem_cons_of_mem _ ha))
      exact ⟨hstands, hreturned.trans hret⟩

theorem actions_nine {more : Bytes} {e : Escape} (h : ∀ a ∈ actions e more, a ∈ [Action.prev, .next]) :
    (9 : UInt8) ∉ more := by
  induction more generalizing e with
  | nil => exact List.not_mem_nil
  | cons c more ih =>
    rw [actions] at h
    by_cases hwait : (decode e c).2 = .wait
    · rw [if_pos hwait] at h
      intro hmem
      rcases List.mem_cons.mp hmem with rfl | hmem
      · revert hwait
        cases e <;> decide
      · exact ih h hmem
    · rw [if_neg hwait] at h
      intro hmem
      rcases List.mem_cons.mp hmem with rfl | hmem
      · have := h _ List.mem_cons_self
        revert this
        cases e <;> decide
      · exact ih (fun a ha => h a (List.mem_cons_of_mem _ ha)) hmem

theorem entries_ne (returned : List Bytes) : [] ∉ entries returned := by
  intro h
  rw [entries, List.mem_reverse, List.mem_filter] at h
  exact (of_decide_eq_true h.2).1 rfl

theorem lineAt_ne {returned : List Bytes} {p : ℕ} (hp : 0 < p)
    (hle : p ≤ (entries returned).length) : lineAt (entries returned) p ≠ [] := by
  rw [lineAt, if_neg (by omega), List.getD_eq_getElem?_getD, List.getElem?_eq_getElem (by omega)]
  intro h
  refine entries_ne returned ?_
  rw [← h]
  exact List.getElem_mem (by omega)

theorem steps_mem (i j : ℕ) : ∀ a ∈ List.replicate i Action.prev ++ List.replicate j Action.next,
    a ∈ [Action.prev, .next] := by
  intro a ha
  rcases List.mem_append.mp ha with ha | ha
  · rw [List.eq_of_mem_replicate ha]
    decide
  · rw [List.eq_of_mem_replicate ha]
    decide

theorem desk_append (keys more : Bytes) : desk (keys ++ more) = more.foldl Desk.type (desk keys) :=
  List.foldl_append

/-- What is shown is the text of the reference. -/
theorem session_shown (shell : ℕ → Choice) (hfirst : (shell 0).ps1 = true) (keys : Bytes)
    (h9 : (9 : UInt8) ∉ keys) (hfit : AllFit shell (desk keys).returned) :
    ∃ s, session shell keys = some s ∧
      s.line.buf.take s.line.eolNum = (desk keys).editor.text := by
  obtain ⟨s, hs, hstep⟩ := (session_inStep shell hfirst keys h9).1 hfit
  obtain ⟨rest, hbuf⟩ := hstep.line.buf
  refine ⟨s, hs, ?_⟩
  rw [hbuf, ← List.append_assoc, hstep.line.eolNum, ← List.length_append]
  exact List.take_left

theorem type_prev {d : Desk} (h : d.editor = .blank) : d.type 16 =
    ⟨Editor.blank.show (histPrev d.hist).2, (histPrev d.hist).1, d.returned⟩ := by
  rw [Desk.type, h]
  rfl

theorem recalls_iff (shell : ℕ → Choice) (keys : Bytes) (hfirst : (shell 0).ps1 = true)
    (h9 : (9 : UInt8) ∉ keys) (hfresh : Fresh keys) :
    Recalls shell keys ↔ AllFit shell (desk keys).returned ∧ position keys = 0 := by
  have hblank := fresh_editor hfresh
  constructor
  · intro h
    have hfit : AllFit shell (desk keys).returned := by
      by_contra hnot
      obtain ⟨s, hs, -⟩ := h [] 0 0 rfl
      rw [List.append_nil, (session_inStep shell hfirst keys h9).2 hnot] at hs
      cases hs
    refine ⟨hfit, ?_⟩
    by_contra hpos
    have hring := session_ring shell hfirst keys h9 hfit
    have hle := hring.pos
    have hreach : reach (entries (desk keys).returned) = min (entries (desk keys).returned).length 19 :=
      rfl
    have htext : ∀ more i j, actions .idle more = List.replicate i .prev ++ List.replicate j .next →
        (desk (keys ++ more)).returned = (desk keys).returned →
        (desk (keys ++ more)).editor.text = lineAt (entries (desk keys).returned)
          (min i (reach (entries (desk keys).returned))-j) := by
      intro more i j hmore hreturned
      have hnine : (9 : UInt8) ∉ keys ++ more := by
        rw [List.mem_append, not_or]
        exact ⟨h9, actions_nine (hmore ▸ steps_mem i j)⟩
      obtain ⟨s, hs, hshown⟩ := h more i j hmore
      obtain ⟨s', hs', hshown'⟩ := session_shown shell hfirst _ hnine (hreturned ▸ hfit)
      rw [← hshown', ← hshown, Option.some.inj (hs'.symm.trans hs)]
    have hprev := type_prev hblank
    by_cases hlt : position keys < reach (entries (desk keys).returned)
    · -- one step back and one forth does not lead to the empty line
      obtain ⟨hline, hring'⟩ := hring.prev.1 hlt
      have hstands : Stands ((desk keys).type 16) (entries (desk keys).returned) (position keys+1) := by
        rw [hprev]
        exact ⟨hline.symm ▸ show_some _ _, hring'⟩
      have hesc : ((desk keys).type 16).editor.escape = .idle := by
        rw [hprev, hline]
        rfl
      obtain ⟨hback, hret, -⟩ := stands_step hstands (c := 14) (a := .next)
        (by rw [hesc]; rfl) (by decide)
      have hdesk : desk (keys ++ [16, 14]) = ((desk keys).type 16).type 14 := desk_append keys _
      have hshow := htext [16, 14] 1 1 rfl (by rw [hdesk, hret, hprev])
      rw [hdesk, hback.text] at hshow
      have hempty : lineAt (entries (desk keys).returned)
          (min 1 (reach (entries (desk keys).returned))-1) = [] := by
        rw [show min 1 (reach (entries (desk keys).returned))-1 = 0 by omega]
        rfl
      rw [hempty] at hshow
      exact lineAt_ne (by omega) (by omega : position keys+1-1 ≤ _) hshow
    · -- no step back leads anywhere
      have hdesk : desk (keys ++ [16]) = (desk keys).type 16 := desk_append keys _
      have hshow := htext [16] 1 0 rfl (by rw [hdesk, hprev])
      rw [hdesk, hprev, hring.prev.2 hlt] at hshow
      have hone : 1 ≤ (entries (desk keys).returned).length := by omega
      refine lineAt_ne (by decide) hone ?_
      rw [show min 1 (reach (entries (desk keys).returned))-0 = 1 by omega] at hshow
      exact hshow.symm
  · rintro ⟨hfit, hpos⟩ more i j hmore
    have hring := session_ring shell hfirst keys h9 hfit
    rw [hpos] at hring
    have hstands : Stands (desk keys) (entries (desk keys).returned) 0 :=
      ⟨by rw [hblank]; rfl, hring⟩
    have hesc : (desk keys).editor.escape = .idle := by rw [hblank]; rfl
    have hmem : ∀ a ∈ actions .idle more, a ∈ [Action.prev, .next] := hmore ▸ steps_mem i j
    obtain ⟨hwalk, hret⟩ := stands_walk more hstands (hesc ▸ hmem)
    have hnine : (9 : UInt8) ∉ keys ++ more := by
      rw [List.mem_append, not_or]
      exact ⟨h9, actions_nine hmem⟩
    rw [hesc, hmore, walk_steps _ _ _ _ (Nat.zero_le _), Nat.zero_add, ← desk_append] at hwalk
    rw [← desk_append] at hret
    obtain ⟨s, hs, hshown⟩ := session_shown shell hfirst _ hnine (hret.symm ▸ hfit)
    exact ⟨s, hs, hshown.trans hwalk.text⟩

/-- The lines that are entered one after the other are all short. -/
theorem allFit_of_mem {shell : ℕ → Choice} {lines : List Bytes}
    (h : ∀ line ∈ lines, seen line ≤ cbsize-2) : AllFit shell lines := by
  intro k line hk
  refine (h line (List.mem_of_getElem? hk)).trans ?_
  unfold Choice.limit
  split_ifs
  · exact le_refl _
  · decide

/-- The lines `a` and `b`, and a third that is given up at once. -/
theorem recalls_given_up : Recalls (fun _ => ⟨true, false, true⟩) [97, 10, 98, 10, 3] := by
  refine (recalls_iff _ _ rfl (by decide) (Or.inr ⟨[97, 10, 98, 10], 3, rfl, by decide⟩)).mpr ?_
  exact ⟨allFit_of_mem (by decide), by decide⟩

/-- When it is given up at `b`, the next prompt goes on to `a`. -/
theorem given_up_at_line : ¬∀ (shell : ℕ → Choice) (keys : Bytes), (shell 0).ps1 = true →
    (9 : UInt8) ∉ keys → Fresh keys → Recalls shell keys := by
  intro h
  have hfresh : Fresh [97, 10, 98, 10, 16, 3] := Or.inr ⟨[97, 10, 98, 10, 16], 3, rfl, by decide⟩
  obtain ⟨s, hs, hshown⟩ := h (fun _ => ⟨true, false, true⟩) _ rfl (by decide) hfresh [16] 1 0 rfl
  obtain ⟨s', hs', hshown'⟩ := session_shown (fun _ => ⟨true, false, true⟩) rfl
    ([97, 10, 98, 10, 16, 3] ++ [16]) (by decide) (allFit_of_mem (by decide))
  rw [Option.some.inj (hs.symm.trans hs')] at hshown
  exact absurd (hshown.symm.trans hshown') (by decide)

end UBoot.Readline
