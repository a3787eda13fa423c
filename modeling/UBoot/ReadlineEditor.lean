import UBoot.Readline
import Mathlib.Data.List.TakeWhile

/-!
# A reference editor

The text on both sides of the cursor, with the actions that the keys stand for. An escape
that no bracket follows stays in the text as a character, and what follows it is lost.
The line that `cread_line` keeps in its buffer mirrors the text of the editor.
-/

set_option autoImplicit false

namespace UBoot.Readline

inductive Escape
  | idle | escape | bracket
deriving DecidableEq, Repr

structure Editor where
  before : Bytes
  after : Bytes
  insert : Bool
  escape : Escape
deriving DecidableEq, Repr

inductive Action
  | put (s : Bytes)
  | home | left | right | toEnd
  | delete | backspace | killEnd | killLine
  | toggle | prev | next
  | abort | enter | wait
deriving DecidableEq, Repr

def plainKey (c : UInt8) : Action :=
  if c = 1 then .home
  else if c = 3 then .abort
  else if c = 6 then .right
  else if c = 2 then .left
  else if c = 4 then .delete
  else if c = 11 then .killEnd
  else if c = 5 then .toEnd
  else if c = 15 then .toggle
  else if c = 24 ∨ c = 21 then .killLine
  else if c = 255 ∨ c = 127 ∨ c = 8 then .backspace
  else if c = 16 then .prev
  else if c = 14 then .next
  else .put [c]

def bracketKey (c : UInt8) : Action :=
  if c = 68 then .left
  else if c = 67 then .right
  else if c = 72 then .home
  else if c = 65 then .prev
  else if c = 66 then .next
  else .put [27, 91, c]

def decode (e : Escape) (c : UInt8) : Escape × Action :=
  if c = 10 ∨ c = 13 then (.idle, .enter)
  else
    match e with
    | .idle => if c = 27 then (.escape, .wait) else (.idle, plainKey c)
    | .escape => if c = 91 then (.bracket, .wait) else (.idle, .put [27])
    | .bracket => (.idle, bracketKey c)

def Editor.text (e : Editor) : Bytes := e.before ++ e.after

/-- One character; in a full line nothing is inserted. -/
def Editor.put (len : ℕ) (e : Editor) (c : UInt8) : Editor :=
  if e.insert = true ∨ e.after = [] then
    if len ≤ e.text.length then e else { e with before := e.before ++ [c] }
  else { e with before := e.before ++ [c], after := e.after.tail }

def Editor.blank : Editor := ⟨[], [], true, .idle⟩

/-- The line of the history takes the place of the text. -/
def Editor.show (e : Editor) (line : Option Bytes) : Editor :=
  match line with
  | none => e
  | some line => { e with before := line, after := [] }

inductive Result
  | more (e : Editor) (h : History)
  | entered (line : Bytes) (h : History)
  | broken (h : History)
deriving DecidableEq, Repr

/-- The history behind a line that was entered. -/
def remember (h : History) (line : Bytes) : History :=
  let s := line.takeWhile (· ≠ 0)
  let h := if s ≠ [] ∧ s.head? ≠ some 33 then (creadAddToHist h s).getD h else h
  { h with cur := h.addIdx }

def perform (len : ℕ) (e : Editor) (h : History) : Action → Result
  | .put s => .more (s.foldl (Editor.put len) e) h
  | .home => .more { e with before := [], after := e.text } h
  | .left => .more { e with before := e.before.dropLast, after := e.before.getLast?.toList ++ e.after } h
  | .right => .more { e with before := e.before ++ e.after.head?.toList, after := e.after.tail } h
  | .toEnd => .more { e with before := e.text, after := [] } h
  | .delete => .more { e with after := e.after.tail } h
  | .backspace => .more { e with before := e.before.dropLast } h
  | .killEnd => .more { e with after := [] } h
  | .killLine => .more { e with before := [], after := [] } h
  | .toggle => .more { e with insert := !e.insert } h
  | .prev => .more (e.show (histPrev h).2) (histPrev h).1
  | .next => .more (e.show (histNext h).2) (histNext h).1
  | .abort => .broken h
  | .enter => .entered e.text (remember h e.text)
  | .wait => .more e h

def typed (len : ℕ) (e : Editor) (h : History) (c : UInt8) : Result :=
  perform len { e with escape := (decode e.escape c).1 } h (decode e.escape c).2

/-! ## Buffers in parts -/

theorem store_at (xs ys : Bytes) (c d : UInt8) :
    store (xs ++ c::ys) xs.length d = some (xs ++ d::ys) := by
  rw [store, if_pos (by simp), List.set_append_right _ _ (le_refl _), Nat.sub_self, List.set_cons_zero]

theorem memmove_up (xs ys rest : Bytes) (z : UInt8) :
    ∃ w, memmove (xs ++ (ys ++ z::rest)) (xs.length+1) xs.length ys.length =
      some (xs ++ w::(ys ++ rest)) := by
  obtain ⟨w, t, hw⟩ : ∃ w t, ys ++ z::rest = w::t := by
    cases ys with
    | nil => exact ⟨z, rest, rfl⟩
    | cons y ys => exact ⟨y, _, rfl⟩
  refine ⟨w, ?_⟩
  have htake : (xs ++ (ys ++ z::rest)).take (xs.length+1) = xs ++ [w] := by
    rw [List.take_append, List.take_of_length_le (by omega), hw, Nat.add_sub_cancel_left,
      List.take_succ_cons, List.take_zero]
  have hdrop : (xs ++ (ys ++ z::rest)).drop (xs.length+1+ys.length) = rest := by
    rw [List.drop_append, List.drop_of_length_le (by omega), List.nil_append, List.drop_append,
      List.drop_of_length_le (by omega), List.nil_append,
      show xs.length+1+ys.length-xs.length-ys.length = 1 by omega, List.drop_one, List.tail_cons]
  rw [memmove, if_pos (by simp; omega), htake, hdrop, List.drop_left, List.take_left]
  simp

theorem memmove_down (xs ys rest : Bytes) (y : UInt8) :
    ∃ w, memmove (xs ++ y::(ys ++ rest)) xs.length (xs.length+1) ys.length =
      some (xs ++ (ys ++ w::rest)) := by
  obtain ⟨w, t, hlen, hw⟩ : ∃ w t, t.length = ys.length ∧ y::ys = t ++ [w] := by
    refine ⟨(y::ys).getLast (List.cons_ne_nil y ys), (y::ys).dropLast, ?_, ?_⟩
    · rw [List.length_dropLast, List.length_cons, Nat.add_sub_cancel]
    · exact (List.dropLast_append_getLast _).symm
  refine ⟨w, ?_⟩
  have hdrop : (xs ++ y::(ys ++ rest)).drop (xs.length+ys.length) = w::rest := by
    rw [← List.cons_append, hw, List.drop_append, List.drop_of_length_le (by omega), List.nil_append,
      Nat.add_sub_cancel_left, ← hlen, List.append_assoc, List.drop_left]
    rfl
  have hsrc : (xs ++ y::(ys ++ rest)).drop (xs.length+1) = ys ++ rest := by
    rw [List.drop_append, List.drop_of_length_le (by omega), Nat.add_sub_cancel_left]
    rfl
  rw [memmove, if_pos (by simp; omega), hdrop, hsrc, List.take_left, List.take_left]
  simp

theorem strcpy_front (buf s : Bytes) (h : s.length+1 ≤ buf.length) :
    strcpy buf 0 s = some (s ++ 0::buf.drop (s.length+1)) := by
  rw [strcpy, if_pos (by omega), List.take_zero, Nat.zero_add]
  simp

theorem cstr_of (s rest : Bytes) (h : 0 ∉ s) : cstr (s ++ 0::rest) = some s := by
  rw [cstr, if_pos (by simp)]
  congr 1
  rw [List.takeWhile_append_of_pos]
  · simp
  · intro c hc
    exact decide_eq_true (fun hzero => h (hzero ▸ hc))

theorem cstr_takeWhile (s rest : Bytes) : cstr (s ++ 0::rest) = some (s.takeWhile (· ≠ 0)) := by
  rw [cstr, if_pos (by simp)]
  congr 1
  induction s with
  | nil => rfl
  | cons c s ih =>
    rw [List.cons_append]
    by_cases hc : c = 0
    · rw [List.takeWhile_cons_of_neg (by simpa using hc), List.takeWhile_cons_of_neg (by simpa using hc)]
    · rw [List.takeWhile_cons_of_pos (by simpa using hc), List.takeWhile_cons_of_pos (by simpa using hc), ih]

/-! ## The line mirrors the text -/

/-- What `esc_len` and `esc_save` keep. -/
def Saved (l : Line) : Escape → Prop
  | .idle => l.escLen = 0
  | .escape => l.escLen = 1 ∧ l.escSave.take 1 = [27]
  | .bracket => l.escLen = 2 ∧ l.escSave.take 2 = [27, 91]

structure Mirrors (len : ℕ) (l : Line) (e : Editor) : Prop where
  buf : ∃ rest, l.buf = e.before ++ (e.after ++ rest)
  size : l.buf.length = len+1
  num : l.num = e.before.length
  eolNum : l.eolNum = e.before.length+e.after.length
  room : l.eolNum ≤ len
  insert : l.insert = e.insert
  save : l.escSave.length = 8
  escape : Saved l e.escape

theorem placeChar_insert {l : Line} {before after rest : Bytes} (c z : UInt8) {i : Bool}
    (hi : i = true) (hbuf : l.buf = before ++ (after ++ z::rest)) (hnum : l.num = before.length)
    (heol : l.eolNum = before.length+after.length+1) :
    placeChar c i l =
      some { l with buf := before ++ c::(after ++ rest), num := before.length+1 } := by
  subst hi
  have hwlen : l.eolNum-l.num = after.length+1 := by omega
  unfold placeChar
  rw [if_pos rfl]
  dsimp only
  rw [hwlen, hnum, hbuf]
  cases after with
  | nil =>
    rw [if_neg (by simp)]
    simp only [List.nil_append, Option.bind_eq_bind, Option.bind_some, store_at]
    rfl
  | cons y ys =>
    obtain ⟨w, hw⟩ := memmove_up before (y::ys) rest z
    rw [if_pos (by simp), Nat.add_sub_cancel, hw]
    simp only [Option.bind_eq_bind, Option.bind_some, store_at]
    rfl

theorem placeChar_overwrite {l : Line} {before rest : Bytes} (c z : UInt8) {i : Bool}
    (hi : i = false) (hbuf : l.buf = before ++ z::rest) (hnum : l.num = before.length) :
    placeChar c i l = some { l with buf := before ++ c::rest, num := before.length+1 } := by
  subst hi
  unfold placeChar
  rw [if_neg (by decide), hnum, hbuf]
  simp only [Option.bind_eq_bind, Option.bind_some, store_at]
  rfl

/-- Behind the text there is a byte left as long as the line is not full. -/
theorem Mirrors.behind {len : ℕ} {l : Line} {e : Editor} (h : Mirrors len l e) :
    ∃ z rest, l.buf = e.before ++ (e.after ++ z::rest) := by
  obtain ⟨rest, hbuf⟩ := h.buf
  have hsize := h.size
  have heol := h.eolNum
  have hroom := h.room
  rw [hbuf, List.length_append, List.length_append] at hsize
  cases rest with
  | nil =>
    rw [List.length_nil] at hsize
    omega
  | cons z rest => exact ⟨z, rest, hbuf⟩

/-- New text in the same buffer, with a byte left behind it. -/
theorem Mirrors.change {len : ℕ} {l : Line} {e : Editor} (h : Mirrors len l e)
    (before after rest : Bytes) (z : UInt8) {buf : Bytes} {num eolNum : ℕ}
    (hbuf : buf = before ++ (after ++ z::rest)) (hsize : buf.length = len+1)
    (hnum : num = before.length) (heol : eolNum = before.length+after.length) :
    Mirrors len { l with buf := buf, num := num, eolNum := eolNum }
      { e with before := before, after := after } := by
  have hlen := hsize
  rw [hbuf, List.length_append, List.length_append, List.length_cons] at hlen
  refine ⟨⟨z::rest, hbuf⟩, hsize, hnum, heol, ?_, h.insert, h.save, ?_⟩
  · change eolNum ≤ len
    omega
  · have hesc := h.escape
    cases he : e.escape with
    | idle =>
      rw [he] at hesc
      exact hesc
    | escape =>
      rw [he] at hesc
      exact hesc
    | bracket =>
      rw [he] at hesc
      exact hesc

theorem addChar_mirrors {len : ℕ} (hlen : 0 < len) {l : Line} {e : Editor} (h : Mirrors len l e)
    (c : UInt8) : ∃ l', creadAddChar len l.insert l c = some l' ∧ Mirrors len l' (e.put len c) := by
  obtain ⟨z, rest, hbuf⟩ := h.behind
  have hsize := h.size
  have hnum := h.num
  have heol := h.eolNum
  have htext : e.text.length = l.eolNum := by
    rw [Editor.text, List.length_append, heol]
  rw [hbuf, List.length_append, List.length_append, List.length_cons] at hsize
  have hend : l.num = l.eolNum ↔ e.after = [] := by
    rw [← List.length_eq_zero_iff]
    omega
  have hcase : (l.insert = true ∨ l.num = l.eolNum) ↔ (e.insert = true ∨ e.after = []) := by
    rw [h.insert, hend]
  unfold creadAddChar Editor.put
  by_cases hins : l.insert = true ∨ l.num = l.eolNum
  · rw [if_pos hins, if_pos (hcase.mp hins), htext]
    by_cases hfull : len ≤ l.eolNum
    · rw [if_pos (by omega), if_pos hfull]
      exact ⟨l, rfl, h⟩
    · rw [if_neg (by omega), if_neg hfull]
      -- the text is not full, so there are two bytes behind it
      obtain ⟨y, rest, rfl⟩ : ∃ y ys, rest = y::ys := by
        cases rest with
        | nil =>
          rw [List.length_nil] at hsize
          omega
        | cons y ys => exact ⟨y, ys, rfl⟩
      rw [List.length_cons] at hsize
      by_cases hi : l.insert = true
      · have hplace := placeChar_insert (l := { l with eolNum := l.eolNum+1 }) c z hi hbuf hnum
          (congrArg (·+1) heol)
        refine ⟨_, hplace, h.change _ _ rest y ?_ ?_ ?_ ?_⟩
        · simp
        · simp
          omega
        · simp
        · simp
          omega
      · have hafter : e.after = [] := hend.mp (hins.resolve_left hi)
        rw [hafter, List.nil_append] at hbuf
        rw [hafter, List.length_nil] at hsize heol
        have hplace := placeChar_overwrite (l := { l with eolNum := l.eolNum+1 }) c z
          (Bool.not_eq_true _ ▸ hi) hbuf hnum
        refine ⟨_, hplace, h.change _ _ rest y ?_ ?_ ?_ ?_⟩
        · simp [hafter]
        · simp
          omega
        · simp
        · simp [hafter]
          omega
  · rw [if_neg hins, if_neg (fun hc => hins (hcase.mpr hc))]
    rw [not_or, Bool.not_eq_true] at hins
    have hafter : e.after ≠ [] := fun hc => hins.2 (hend.mpr hc)
    obtain ⟨y, ys, hys⟩ := List.exists_cons_of_ne_nil hafter
    rw [hys, List.cons_append] at hbuf
    rw [hys, List.length_cons] at hsize heol
    refine ⟨_, placeChar_overwrite c y hins.1 hbuf hnum, h.change _ _ rest z ?_ ?_ ?_ ?_⟩
    · simp [hys]
    · simp
      omega
    · simp
    · simp [hys]
      omega

theorem addStr_mirrors {len : ℕ} (hlen : 0 < len) {l : Line} {e : Editor} (h : Mirrors len l e)
    (str : Bytes) : ∃ l', creadAddStr len l.insert l str = some l' ∧
      Mirrors len l' (str.foldl (Editor.put len) e) := by
  induction str generalizing l e with
  | nil => exact ⟨l, rfl, h⟩
  | cons c str ih =>
    obtain ⟨l', hl', h'⟩ := addChar_mirrors hlen h c
    have hins : l'.insert = l.insert := by
      rw [h'.insert, h.insert, Editor.put]
      split_ifs <;> rfl
    obtain ⟨l'', hl'', h''⟩ := ih h'
    refine ⟨l'', ?_, h''⟩
    rw [creadAddStr, List.foldlM_cons, hl', ← hins]
    exact hl''

/-! ## The lines of the history -/

def Fits (len : ℕ) (line : Bytes) : Prop := line.length ≤ len ∧ (0 : UInt8) ∉ line

def History.All (P : Bytes → Prop) (h : History) : Prop := ∀ line ∈ h.list, P line

theorem fits_nil (len : ℕ) : Fits len [] := ⟨Nat.zero_le len, by simp⟩

theorem History.All.getD {P : Bytes → Prop} (hnil : P []) {h : History} (hf : h.All P) (i : ℕ) :
    P (h.list.getD i []) := by
  rw [List.getD_eq_getElem?_getD]
  cases hi : h.list[i]? with
  | none => exact hnil
  | some line => exact hf line (List.mem_of_getElem? hi)

/-- A step back or forth in the history leaves its lines as they are and gives one of them, or
the empty one. -/
theorem histPrev_all {P : Bytes → Prop} (hnil : P []) {h : History} (hf : h.All P) :
    (histPrev h).1.All P ∧ ∀ line ∈ (histPrev h).2, P line := by
  unfold histPrev
  dsimp only
  split_ifs
  · exact ⟨hf, by simp⟩
  · exact ⟨hf, by simp⟩
  · exact ⟨hf, by simpa using hf.getD hnil _⟩
  · exact ⟨hf, by simp⟩
  · exact ⟨hf, by simpa using hf.getD hnil _⟩

theorem histNext_all {P : Bytes → Prop} (hnil : P []) {h : History} (hf : h.All P) :
    (histNext h).1.All P ∧ ∀ line ∈ (histNext h).2, P line := by
  unfold histNext
  dsimp only
  split_ifs
  · exact ⟨hf, by simp⟩
  · exact ⟨hf, by simp⟩
  · exact ⟨hf, by simpa using hnil⟩
  · exact ⟨hf, by simpa using hf.getD hnil _⟩
  · exact ⟨hf, by simpa using hnil⟩
  · exact ⟨hf, by simpa using hf.getD hnil _⟩

theorem fits_takeWhile {len : ℕ} {line : Bytes} (h : line.length ≤ len) :
    Fits len (line.takeWhile (· ≠ 0)) := by
  refine ⟨(List.takeWhile_sublist _).length_le.trans h, fun hmem => ?_⟩
  have := List.mem_takeWhile_imp hmem
  simp at this

theorem add_all {P : Bytes → Prop} {h : History} (hf : h.All P) {line : Bytes} (hl : P line)
    (hlen : line.length ≤ cbsize) : ∃ h', creadAddToHist h line = some h' ∧ h'.All P := by
  refine ⟨_, if_neg (Nat.not_lt.mpr hlen), fun s hs => ?_⟩
  rcases List.mem_or_eq_of_mem_set hs with hs | rfl
  · exact hf s hs
  · exact hl

theorem remember_all {P : Bytes → Prop} {h : History} (hf : h.All P) {line : Bytes}
    (hl : P (line.takeWhile (· ≠ 0))) (hlen : line.length ≤ cbsize) : (remember h line).All P := by
  obtain ⟨h', hadd, hf'⟩ := add_all hf hl ((List.takeWhile_sublist _).length_le.trans hlen)
  unfold remember
  dsimp only
  split_ifs
  · rw [hadd]
    exact hf'
  · exact hf

/-! ## One key -/

/-- The line of the code and the text of the editor after a key. -/
def Agree (len : ℕ) : Outcome → Result → Prop
  | .more l h, .more e h' => Mirrors len l e ∧ h = h'
  | .entered line buf h, .entered line' h' => line = line' ∧ h = h' ∧ buf.length = len+1 ∧
      cstr buf = some (line'.takeWhile (· ≠ 0))
  | .broken buf h, .broken h' => h = h' ∧ buf.length = len+1 ∧ cstr buf = some []
  | _, _ => False

theorem mirrors_idle {len : ℕ} {l : Line} {e : Editor} (h : Mirrors len l e) :
    Mirrors len { l with escLen := 0 } { e with escape := .idle } :=
  ⟨h.buf, h.size, h.num, h.eolNum, h.room, h.insert, h.save, rfl⟩

/-- Another cursor in the same text. -/
theorem Mirrors.move {len : ℕ} {l : Line} {e : Editor} (h : Mirrors len l e)
    (before after : Bytes) {num : ℕ} (htext : before ++ after = e.text) (hnum : num = before.length) :
    Mirrors len { l with num := num } { e with before := before, after := after } := by
  obtain ⟨z, rest, hbuf⟩ := h.behind
  refine h.change _ _ rest z ?_ h.size hnum ?_
  · rw [← List.append_assoc, htext, Editor.text, List.append_assoc]
    exact hbuf
  · rw [← List.length_append, htext, Editor.text, List.length_append]
    exact h.eolNum

/-- The buffer with a line of the history in it. -/
def Line.holding (l : Line) (line : Bytes) (num : ℕ) : Line :=
  { l with
    buf := line ++ 0::l.buf.drop (line.length+1)
    num := num
    eolNum := line.length
    escLen := 0 }

theorem refresh_holding (l : Line) (line : Bytes) :
    refreshToEol (l.holding line 0) = l.holding line line.length := by
  rw [refreshToEol]
  split_ifs with h
  · rfl
  · have hzero : line.length = 0 := by
      change ¬0 < line.length at h
      omega
    rw [hzero]

theorem showHist_agree {len : ℕ} {l : Line} {e : Editor} (h : Mirrors len l e)
    (he : e.escape = .idle) {r : History × Option Bytes} (hr : ∀ line ∈ r.2, Fits len line) :
    ∃ o, showHist l r = some o ∧ Agree len o (.more (e.show r.2) r.1) := by
  have hsame : e = { e with escape := .idle } := by rw [← he]
  cases hline : r.2 with
  | none =>
    rw [showHist, hline]
    refine ⟨_, rfl, ?_, rfl⟩
    have := mirrors_idle h
    rw [← hsame] at this
    exact this
  | some line =>
    obtain ⟨hlen, hzero⟩ := hr line hline
    have hsize := h.size
    have hcopy := strcpy_front l.buf line (by omega)
    have hbase : ∃ num eolNum, eraseToEol (beginningOfLine { l with escLen := 0 }) =
        { l with num := num, eolNum := eolNum, escLen := 0 } ∧ num = 0 := by
      rw [eraseToEol, beginningOfLine]
      split_ifs
      · exact ⟨_, _, rfl, rfl⟩
      · exact ⟨_, _, rfl, rfl⟩
    obtain ⟨num, eolNum, hb, rfl⟩ := hbase
    have hout : showHist l r = some (.more (l.holding line line.length) r.1) := by
      rw [showHist, hline, ← refresh_holding]
      dsimp only
      rw [hb]
      simp only [Option.bind_eq_bind, hcopy, Option.bind_some, cstr_of line _ hzero]
      rfl
    refine ⟨_, hout, ?_, rfl⟩
    rw [hsame]
    refine (mirrors_idle h).change _ [] (l.buf.drop (line.length+1)) 0 ?_ ?_ ?_ ?_
    · simp
    · simp
      omega
    · rfl
    · rfl

theorem deleteChar_mirrors {len : ℕ} {l : Line} {e : Editor} (h : Mirrors len l e) :
    ∃ l', deleteChar l = some l' ∧ Mirrors len l' { e with after := e.after.tail } := by
  obtain ⟨z, rest, hbuf⟩ := h.behind
  have hnum := h.num
  have heol := h.eolNum
  rw [deleteChar]
  cases hafter : e.after with
  | nil =>
    rw [hafter, List.length_nil] at heol
    rw [if_neg (by omega)]
    exact ⟨l, rfl, by rw [List.tail_nil, ← hafter]; exact h⟩
  | cons y ys =>
    rw [hafter, List.cons_append] at hbuf
    rw [hafter, List.length_cons] at heol
    have hsize := h.size
    rw [hbuf] at hsize
    rw [if_pos (by omega), show l.eolNum-l.num-1 = ys.length by omega, hnum, hbuf]
    obtain ⟨w, hw⟩ := memmove_down e.before ys (z::rest) y
    cases ys with
    | nil =>
      refine ⟨{ l with buf := l.buf, num := e.before.length, eolNum := l.eolNum-1 }, ?_, ?_⟩
      · rw [hbuf]
        dsimp only
        rw [if_neg (by simp), ← hnum]
        rfl
      · refine h.change _ _ (z::rest) y ?_ h.size rfl ?_
        · exact hbuf
        · change l.eolNum-1 = e.before.length+0
          rw [List.length_nil] at heol
          omega
    | cons x xs =>
      rw [if_pos (by simp), hw]
      refine ⟨{ l with buf := e.before ++ (x::xs ++ w::z::rest), num := e.before.length, eolNum := l.eolNum-1 }, ?_, ?_⟩
      · rw [← hnum]
        rfl
      · refine h.change _ _ (z::rest) w rfl ?_ rfl ?_
        · simp at hsize ⊢
          omega
        · simp at heol ⊢
          omega

theorem backspace_mirrors {len : ℕ} {l : Line} {e : Editor} (h : Mirrors len l e) :
    ∃ l', backspace l = some l' ∧ Mirrors len l' { e with before := e.before.dropLast } := by
  obtain ⟨z, rest, hbuf⟩ := h.behind
  have hnum := h.num
  have heol := h.eolNum
  have hsize := h.size
  rw [backspace]
  rcases List.eq_nil_or_concat e.before with hbefore | ⟨xs, x, hbefore⟩
  · rw [hbefore, List.length_nil] at hnum
    rw [if_neg (by omega)]
    exact ⟨l, rfl, by rw [hbefore, List.dropLast_nil, ← hbefore]; exact h⟩
  · rw [List.concat_eq_append] at hbefore
    rw [hbefore, List.length_append, List.length_singleton] at hnum heol
    rw [hbefore, List.append_assoc, List.singleton_append] at hbuf
    rw [hbuf] at hsize
    obtain ⟨w, hw⟩ := memmove_down xs e.after (z::rest) x
    rw [if_pos (by omega), show l.eolNum-l.num = e.after.length by omega,
      show l.num-1 = xs.length by omega, hnum, hbuf, hw]
    refine ⟨_, rfl, ?_⟩
    rw [hbefore, List.dropLast_concat]
    refine h.change _ _ (z::rest) w rfl ?_ rfl ?_
    · simp at hsize ⊢
      omega
    · omega

theorem eraseToEol_eq {l : Line} (h : l.num ≤ l.eolNum) :
    eraseToEol l = { l with eolNum := l.num } := by
  obtain ⟨buf, num, eolNum, insert, escLen, escSave⟩ := l
  change num ≤ eolNum at h
  rcases Nat.lt_or_eq_of_le h with hlt | rfl
  · exact if_pos hlt
  · exact if_neg (lt_irrefl _)

theorem refreshToEol_eq {l : Line} (h : l.num ≤ l.eolNum) :
    refreshToEol l = { l with num := l.eolNum } := by
  obtain ⟨buf, num, eolNum, insert, escLen, escSave⟩ := l
  change num ≤ eolNum at h
  rcases Nat.lt_or_eq_of_le h with hlt | rfl
  · exact if_pos hlt
  · exact if_neg (lt_irrefl _)

theorem Mirrors.cut {len : ℕ} {l : Line} {e : Editor} (h : Mirrors len l e) :
    Mirrors len { l with eolNum := l.num } { e with after := [] } := by
  obtain ⟨z, rest, hbuf⟩ := h.behind
  obtain ⟨y, ys, hy⟩ : ∃ y ys, e.after ++ z::rest = y::ys := by
    cases e.after with
    | nil => exact ⟨z, rest, rfl⟩
    | cons y ys => exact ⟨y, _, rfl⟩
  exact h.change _ _ ys y (hbuf.trans (congrArg _ hy)) h.size h.num h.num

/-- The keys outside of an escape sequence, in the order of the code. -/
theorem control_agree {len : ℕ} (hlen : 0 < len) {l : Line} {e : Editor} (h : Mirrors len l e)
    (he : e.escape = .idle) {hist : History} (hf : hist.All (Fits len)) (c : UInt8) (h9 : c ≠ 9)
    (h27 : c ≠ 27) : ∃ o, control len l hist c = some o ∧
      Agree len o (perform len e hist (plainKey c)) := by
  obtain ⟨z, rest, hbuf⟩ := h.behind
  have hnum := h.num
  have heol := h.eolNum
  have hsize := h.size
  unfold control plainKey
  rw [if_neg h27]
  by_cases h1 : c = 1
  · rw [if_pos h1, if_pos h1]
    exact ⟨_, rfl, h.move _ _ rfl rfl, rfl⟩
  rw [if_neg h1, if_neg h1]
  by_cases h3 : c = 3
  · rw [if_pos h3, if_pos h3]
    cases hb : l.buf with
    | nil =>
      rw [hb] at hsize
      cases hsize
    | cons b bs =>
      refine ⟨_, rfl, rfl, ?_, cstr_of [] bs (by simp)⟩
      rw [hb] at hsize
      exact hsize
  rw [if_neg h3, if_neg h3]
  by_cases h6 : c = 6
  · rw [if_pos h6, if_pos h6]
    refine ⟨_, rfl, ?_, rfl⟩
    cases hafter : e.after with
    | nil =>
      rw [hafter, List.length_nil] at heol
      rw [if_neg (by omega)]
      exact h.move _ _ (by simp [Editor.text, hafter]) (by simp [hnum])
    | cons y ys =>
      rw [hafter, List.length_cons] at heol
      rw [if_pos (by omega)]
      exact h.move _ _ (by simp [Editor.text, hafter]) (by simp [hnum])
  rw [if_neg h6, if_neg h6]
  by_cases h2 : c = 2
  · rw [if_pos h2, if_pos h2]
    refine ⟨_, rfl, ?_, rfl⟩
    rcases List.eq_nil_or_concat e.before with hbefore | ⟨xs, x, hbefore⟩
    · rw [hbefore, List.length_nil] at hnum
      rw [if_neg (by omega)]
      exact h.move _ _ (by simp [Editor.text, hbefore]) (by simp [hnum, hbefore])
    · rw [List.concat_eq_append] at hbefore
      rw [hbefore, List.length_append, List.length_singleton] at hnum
      rw [if_pos (by omega)]
      exact h.move _ _ (by simp [Editor.text, hbefore]) (by simp [hnum, hbefore])
  rw [if_neg h2, if_neg h2]
  by_cases h4 : c = 4
  · rw [if_pos h4, if_pos h4]
    obtain ⟨l', hl', h'⟩ := deleteChar_mirrors h
    rw [hl']
    exact ⟨_, rfl, h', rfl⟩
  rw [if_neg h4, if_neg h4]
  by_cases h11 : c = 11
  · rw [if_pos h11, if_pos h11]
    refine ⟨_, rfl, ?_, rfl⟩
    rw [eraseToEol_eq (by omega)]
    exact h.cut
  rw [if_neg h11, if_neg h11]
  by_cases h5 : c = 5
  · rw [if_pos h5, if_pos h5]
    refine ⟨_, rfl, ?_, rfl⟩
    rw [refreshToEol_eq (by omega)]
    exact h.move _ _ (by rw [List.append_nil]) (by rw [Editor.text, List.length_append, heol])
  rw [if_neg h5, if_neg h5]
  by_cases h15 : c = 15
  · rw [if_pos h15, if_pos h15]
    refine ⟨_, rfl, ⟨h.buf, h.size, h.num, h.eolNum, h.room, congrArg not h.insert, h.save, ?_⟩, rfl⟩
    have hesc := h.escape
    change Saved _ e.escape
    rw [he] at hesc ⊢
    exact hesc
  rw [if_neg h15, if_neg h15]
  by_cases h24 : c = 24 ∨ c = 21
  · rw [if_pos h24, if_pos h24]
    refine ⟨_, rfl, ?_, rfl⟩
    rw [eraseToEol_eq (Nat.zero_le _)]
    exact (h.move [] _ rfl rfl).cut
  rw [if_neg h24, if_neg h24]
  by_cases h8 : c = 255 ∨ c = 127 ∨ c = 8
  · rw [if_pos h8, if_pos h8]
    obtain ⟨l', hl', h'⟩ := backspace_mirrors h
    rw [hl']
    exact ⟨_, rfl, h', rfl⟩
  rw [if_neg h8, if_neg h8]
  by_cases h16 : c = 16
  · rw [if_pos h16, if_pos h16]
    exact showHist_agree h he (histPrev_all (fits_nil len) hf).2
  rw [if_neg h16, if_neg h16]
  by_cases h14 : c = 14
  · rw [if_pos h14, if_pos h14]
    exact showHist_agree h he (histNext_all (fits_nil len) hf).2
  rw [if_neg h14, if_neg h14, if_neg h9]
  obtain ⟨l', hl', h'⟩ := addChar_mirrors hlen h c
  rw [hl']
  exact ⟨_, rfl, h', rfl⟩

theorem finish_agree {l : Line} {e : Editor} (h : Mirrors cbsize l e) {hist : History}
    (hf : hist.All (Fits cbsize)) :
    ∃ o, finish l hist = some o ∧ Agree cbsize o (.entered e.text (remember hist e.text)) := by
  obtain ⟨z, rest, hbuf⟩ := h.behind
  have hsize := h.size
  have heol : l.eolNum = e.text.length := by
    rw [h.eolNum, Editor.text, List.length_append]
  have hroom : e.text.length ≤ cbsize := heol ▸ h.room
  rw [← List.append_assoc] at hbuf
  have hstore : store l.buf l.eolNum 0 = some (e.text ++ 0::rest) := by
    rw [hbuf, heol]
    exact store_at e.text rest z 0
  obtain ⟨h', hadd, -⟩ := add_all hf (fits_takeWhile hroom)
    ((List.takeWhile_sublist _).length_le.trans hroom)
  have hlen : (e.text ++ 0::rest).length = cbsize+1 := by
    rw [hbuf] at hsize
    simpa [Editor.text] using hsize
  unfold finish
  rw [hstore]
  simp only [Option.bind_eq_bind, Option.bind_some, cstr_takeWhile]
  by_cases hkeep : e.text.takeWhile (· ≠ 0) ≠ [] ∧ (e.text.takeWhile (· ≠ 0)).head? ≠ some 33
  · have hrem : remember hist e.text = { h' with cur := h'.addIdx } := by
      rw [remember, if_pos hkeep, hadd]
      rfl
    rw [if_pos hkeep, hadd]
    refine ⟨_, rfl, ?_, hrem.symm, hlen, cstr_takeWhile _ _⟩
    rw [heol, List.take_left]
  · have hrem : remember hist e.text = { hist with cur := hist.addIdx } := by
      rw [remember, if_neg hkeep]
    rw [if_neg hkeep]
    refine ⟨_, rfl, ?_, hrem.symm, hlen, cstr_takeWhile _ _⟩
    rw [heol, List.take_left]

theorem decode_enter {c : UInt8} (h : c = 10 ∨ c = 13) (e : Escape) : decode e c = (.idle, .enter) :=
  if_pos h

theorem arrow_bracketKey (c : UInt8) :
    bracketKey c = ((arrow c).map plainKey).getD (.put [27, 91, c]) := by
  unfold bracketKey arrow
  split_ifs <;> rfl

theorem foldl_put_escape (len : ℕ) (str : Bytes) (e : Editor) (x : Escape) :
    str.foldl (Editor.put len) { e with escape := x } =
      { str.foldl (Editor.put len) e with escape := x } := by
  induction str generalizing e with
  | nil => rfl
  | cons c str ih =>
    have hput : Editor.put len { e with escape := x } c = { e.put len c with escape := x } := by
      unfold Editor.put Editor.text
      split_ifs <;> rfl
    rw [List.foldl_cons, List.foldl_cons, hput, ih]

/-- A key for the code is a key for the editor. -/
theorem key_agree {l : Line} {e : Editor} (h : Mirrors cbsize l e) {hist : History}
    (hf : hist.All (Fits cbsize)) (c : UInt8) (h9 : c ≠ 9) : ∃ o, creadKey cbsize l hist c = some o ∧
      Agree cbsize o (typed cbsize e hist c) := by
  have hpos : 0 < cbsize := by decide
  have hesc := h.escape
  have hsave := h.save
  unfold creadKey typed
  by_cases hend : c = 10 ∨ c = 13
  · rw [if_pos hend, decode_enter hend]
    exact finish_agree h hf
  rw [if_neg hend, decode.eq_def, if_neg hend]
  cases he : e.escape with
  | idle =>
    rw [he] at hesc
    change l.escLen = 0 at hesc
    rw [if_pos hesc]
    dsimp only
    by_cases h27 : c = 27
    · rw [if_pos h27]
      have hstore : store l.escSave l.escLen c = some (l.escSave.set 0 27) := by
        rw [hesc, h27, store, if_pos (by omega)]
      have hctl : control cbsize l hist c =
          some (.more { l with escSave := l.escSave.set 0 27, escLen := 1 } hist) := by
        rw [control, if_pos h27, if_pos hesc, hstore]
        rfl
      refine ⟨_, hctl, ⟨h.buf, h.size, h.num, h.eolNum, h.room, h.insert, ?_, rfl, ?_⟩, rfl⟩
      · rw [List.length_set]
        exact hsave
      · cases hs : l.escSave with
        | nil =>
          rw [hs] at hsave
          cases hsave
        | cons b bs => rfl
    · rw [if_neg h27]
      have hidle : { e with escape := .idle } = e := by rw [← he]
      rw [hidle]
      exact control_agree hpos h he hf c h9 h27
  | escape =>
    rw [he] at hesc
    obtain ⟨hone, htake⟩ := hesc
    rw [if_neg (by omega), if_pos hone]
    dsimp only
    by_cases h91 : c = 91
    · rw [if_pos h91, if_pos h91, store, if_pos (by omega)]
      refine ⟨_, rfl, ⟨h.buf, h.size, h.num, h.eolNum, h.room, h.insert, ?_, rfl, ?_⟩, rfl⟩
      · rw [List.length_set]
        exact hsave
      · rw [hone, h91]
        rcases hs : l.escSave with _ | ⟨a, _ | ⟨b, bs⟩⟩
        · rw [hs] at hsave
          cases hsave
        · rw [hs] at hsave
          cases hsave
        · rw [hs] at htake
          cases htake
          rfl
    · rw [if_neg h91, if_neg h91, hone, htake]
      obtain ⟨l', hl', h'⟩ := addStr_mirrors hpos h [27]
      rw [hl']
      refine ⟨_, rfl, ?_, rfl⟩
      have hidle := mirrors_idle h'
      rw [← foldl_put_escape] at hidle
      exact hidle
  | bracket =>
    rw [he] at hesc
    obtain ⟨htwo, htake⟩ := hesc
    rw [if_neg (by omega), if_neg (by omega)]
    dsimp only
    rw [arrow_bracketKey]
    cases ha : arrow c with
    | some d =>
      have hd : d ≠ 9 ∧ d ≠ 27 := by
        unfold arrow at ha
        split_ifs at ha <;> cases ha <;> decide
      exact control_agree hpos (mirrors_idle h) rfl hf d hd.1 hd.2
    | none =>
      have htaken : (l.escSave.set l.escLen c).take (l.escLen+1) = [27, 91, c] := by
        rw [htwo]
        rcases hs : l.escSave with _ | ⟨a, _ | ⟨b, _ | ⟨d, bs⟩⟩⟩
        · rw [hs] at hsave
          cases hsave
        · rw [hs] at hsave
          cases hsave
        · rw [hs] at hsave
          cases hsave
        · rw [hs] at htake
          cases htake
          rfl
      obtain ⟨l', hl', h'⟩ := addStr_mirrors hpos h [27, 91, c]
      have hstore : store l.escSave l.escLen c = some (l.escSave.set l.escLen c) :=
        if_pos (by omega)
      have hidle := mirrors_idle h'
      rw [← foldl_put_escape] at hidle
      rw [hstore]
      simp only [Option.bind_eq_bind, Option.bind_some, htaken, hl']
      refine ⟨_, rfl, ⟨hidle.buf, hidle.size, hidle.num, hidle.eolNum, hidle.room, hidle.insert,
        ?_, ?_⟩, rfl⟩
      · rw [List.length_set]
        exact hsave
      · rw [foldl_put_escape]
        rfl

/-! ## A session with the editor -/

structure Desk where
  editor : Editor
  hist : History
  returned : List Bytes
deriving DecidableEq, Repr

def Desk.start : Desk := ⟨.blank, histInit, []⟩

def Desk.type (s : Desk) (c : UInt8) : Desk :=
  match typed cbsize s.editor s.hist c with
  | .more e h => ⟨e, h, s.returned⟩
  | .entered line h => ⟨.blank, h, s.returned ++ [line]⟩
  | .broken h => ⟨.blank, h, s.returned ++ [[]]⟩

def desk (keys : Bytes) : Desk := keys.foldl Desk.type .start

end UBoot.Readline
