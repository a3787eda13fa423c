import UBoot.EnvImport
import UBoot.EnvRoundTrip
import Mathlib.Data.List.TakeWhile

/-!
# The records of an import text

A text is a row of records up to its end or up to a NUL where a record would begin. A record is a
comment, a name, a name with `=`, or a name with a value, and ends with NUL or the separator.
`himport_r` stays in a text exactly when it is such a row, and processes then every record.
-/

set_option autoImplicit false

namespace UBoot.EnvText
open UBoot.HashTable

/-- The bytes of a value in front of its terminator `t`, and the value. A backslash stands for
itself in front of NUL only. -/
inductive Escaped (sep t : UInt8) : List UInt8 → CStr → Prop
  | nil : Escaped sep t [] []
  | plain (c : UInt8) (l : List UInt8) (v : CStr) (h0 : c ≠ 0) (hs : c ≠ sep) (hb : c ≠ backslash)
      (h : Escaped sep t l v) : Escaped sep t (c::l) (c::v)
  | escape (d : UInt8) (l : List UInt8) (v : CStr) (hs : backslash ≠ sep) (h0 : d ≠ 0)
      (h : Escaped sep t l v) : Escaped sep t (backslash::d::l) (d::v)
  | backslash (hs : backslash ≠ sep) (ht : t = 0) : Escaped sep t [backslash] [backslash]

def Terminates (sep t : UInt8) : Prop := t = 0 ∨ t = sep

/-- Where a record begins behind its blanks. -/
def Starts (l : List UInt8) : Prop := ∀ c, l.head? = some c → isblank c = false ∧ c ≠ 35

def NameChars (sep : UInt8) (name : CStr) : Prop := ∀ c ∈ name, c ≠ equals ∧ c ≠ 0 ∧ c ≠ sep

/-- A record without the blanks in front of it, its item and what follows it. Behind a name
without `=` that does not end with NUL there is a further byte. -/
inductive Record (sep : UInt8) (rest : List UInt8) : List UInt8 → Item → Prop
  | comment (body : List UInt8) (t : UInt8) (hbody : ∀ c ∈ body, c ≠ 0 ∧ c ≠ sep)
      (ht : Terminates sep t) (hhead : (body ++ [t]).head? = some 35) :
      Record sep rest (body ++ [t]) .comment
  | bare (name : CStr) (t : UInt8) (hname : NameChars sep name) (hstart : Starts (name ++ [t]))
      (ht : Terminates sep t) (hequals : t ≠ equals) (hnext : t = 0 ∨ rest ≠ []) :
      Record sep rest (name ++ [t]) (.delete name)
  | empty (name : CStr) (t : UInt8) (hname : NameChars sep name)
      (hstart : Starts (name ++ [equals])) (ht : Terminates sep t ∨ sep = equals) :
      Record sep rest (name ++ [equals, t]) (.delete name)
  | value (name : CStr) (c : UInt8) (l : List UInt8) (v : CStr) (t : UInt8)
      (hname : NameChars sep name) (hstart : Starts (name ++ [equals])) (hsep : sep ≠ equals)
      (hv : Escaped sep t (c::l) v) (ht : Terminates sep t) :
      Record sep rest (name ++ equals::(c::l ++ [t])) (.set name v)

/-- A row of records with their items. -/
inductive Reads (sep : UInt8) : List UInt8 → List Item → Prop
  | last (blanks r rest : List UInt8) (item : Item) (hb : ∀ c ∈ blanks, isblank c = true)
      (hr : Record sep rest r item) (hend : rest = [] ∨ rest.head? = some 0) :
      Reads sep (blanks ++ (r ++ rest)) [item]
  | next (blanks r rest : List UInt8) (item : Item) (items : List Item)
      (hb : ∀ c ∈ blanks, isblank c = true) (hr : Record sep rest r item)
      (hmore : rest ≠ [] ∧ rest.head? ≠ some 0) (h : Reads sep rest items) :
      Reads sep (blanks ++ (r ++ rest)) (item::items)

/-! ## Values -/

theorem Escaped.head {sep t c : UInt8} {l : List UInt8} {v : CStr}
    (h : Escaped sep t (c::l) v) : c ≠ 0 ∧ c ≠ sep := by
  cases h with
  | plain _ _ _ h0 hs hb h => exact ⟨h0, hs⟩
  | escape d l v hs h0 h => exact ⟨by decide, hs⟩
  | backslash hs ht => exact ⟨by decide, hs⟩

theorem parseValue_terminated (sep t : UInt8) (ht : Terminates sep t) (rest : List UInt8) :
    parseValue sep (t::rest) = some ([], rest) := by
  have hstop : t = 0 ∨ t = sep := ht
  cases rest with
  | nil => rw [parseValue, if_pos hstop]
  | cons d rest => rw [parseValue, if_pos hstop]

theorem parseValue_read (sep t : UInt8) (l : List UInt8) (v : CStr) (h : Escaped sep t l v)
    (ht : Terminates sep t) (rest : List UInt8) :
    parseValue sep (l ++ t::rest) = some (v, rest) := by
  induction h with
  | nil => exact parseValue_terminated sep t ht rest
  | plain c l v h0 hs hb _ ih =>
    obtain ⟨d, tail, htail⟩ : ∃ d tail, l ++ t::rest = d::tail :=
      List.exists_cons_of_ne_nil (by simp)
    rw [List.cons_append, htail, parseValue_plain sep c d tail h0 hs hb, ← htail, ih]
    rfl
  | escape d l v hs h0 _ ih =>
    rw [List.cons_append, List.cons_append, parseValue_escape sep d _ h0 hs, ih]
    rfl
  | backslash hs h0 =>
    have hstop : ¬ (backslash = 0 ∨ backslash = sep) := by
      rintro (h | h)
      · exact absurd h (by decide)
      · exact hs h
    rw [List.singleton_append, parseValue, if_neg hstop, if_neg (fun h => h.2 h0),
      parseValue_terminated sep t ht]
    rfl

theorem parseValue_escaped_of (sep : UInt8) (text : List UInt8) (v : CStr) (rest : List UInt8)
    (h : parseValue sep text = some (v, rest)) :
    ∃ l t, text = l ++ t::rest ∧ Terminates sep t ∧ Escaped sep t l v := by
  induction text using parseValue.induct sep generalizing v with
  | case1 => exact absurd h (by simp [parseValue])
  | case2 c hc =>
    rw [parseValue, if_pos hc] at h
    cases h
    exact ⟨[], c, rfl, hc, .nil⟩
  | case3 c hc =>
    rw [parseValue, if_neg hc] at h
    exact absurd h (by simp)
  | case4 c d tail hc =>
    rw [parseValue, if_pos hc] at h
    cases h
    exact ⟨[], c, rfl, hc, .nil⟩
  | case5 c d tail hc hb ih =>
    rw [parseValue, if_neg hc, if_pos hb] at h
    obtain ⟨r, hr, heq⟩ := Option.map_eq_some_iff.mp h
    obtain ⟨v', rest'⟩ := r
    cases heq
    obtain ⟨l, t, htext, ht, hl⟩ := ih v' hr
    have hs : backslash ≠ sep := fun hs => hc (.inr (hb.1.trans hs))
    refine ⟨c::d::l, t, by rw [htext]; rfl, ht, ?_⟩
    rw [hb.1]
    exact .escape d l v' hs hb.2 hl
  | case6 c d tail hc hb ih =>
    rw [parseValue, if_neg hc, if_neg hb] at h
    obtain ⟨r, hr, heq⟩ := Option.map_eq_some_iff.mp h
    obtain ⟨v', rest'⟩ := r
    cases heq
    push Not at hc
    by_cases hback : c = backslash
    · -- a backslash in front of NUL, which ends the value
      have hd : d = 0 := by
        by_contra hd
        exact hb ⟨hback, hd⟩
      rw [hd, parseValue_terminated sep 0 (.inl rfl)] at hr
      cases hr
      refine ⟨[c], d, rfl, .inl hd, ?_⟩
      rw [hback]
      exact .backslash (hback ▸ hc.2) hd
    · obtain ⟨l, t, htext, ht, hl⟩ := ih v' hr
      exact ⟨c::l, t, by rw [htext]; rfl, ht, .plain c l v' hc.1 hc.2 hback hl⟩

/-! ## One record -/

/-- The rest of a round of the parse loop behind a name and the byte that ends it. -/
def afterName (sep : UInt8) (name : CStr) (d : UInt8) (after : List UInt8) :
    Option (Item × List UInt8) :=
  if d = 0 then some (.delete name, after)
  else match after with
    | [] => none
    | e::after' =>
      if e = 0 ∨ d = sep ∨ e = sep then
        some (.delete name, if d = equals then after' else after)
      else (parseValue sep after).map fun (v, r) => (.set name v, r)

theorem head_append (l : List UInt8) (d : UInt8) (r : List UInt8) :
    (l ++ d::r).head? = (l ++ [d]).head? := by
  cases l with
  | nil => rfl
  | cons x l => rfl

theorem parseItem_named (sep : UInt8) (text : List UInt8) (name : CStr) (d : UInt8)
    (after : List UInt8) (htext : text.dropWhile isblank = name ++ d::after)
    (hname : NameChars sep name) (hd : d = equals ∨ d = 0 ∨ d = sep)
    (hstart : (name ++ [d]).head? ≠ some 35) :
    parseItem sep text = afterName sep name d after := by
  obtain ⟨c, tail, hc⟩ : ∃ c tail, name ++ d::after = c::tail :=
    List.exists_cons_of_ne_nil (by simp)
  have hhead : c ≠ 35 := by
    rintro rfl
    apply hstart
    rw [← head_append name d after, hc]
    rfl
  obtain ⟨htake, hdrop⟩ := takeWhile_stop (fun x => x ≠ equals && x ≠ 0 && x ≠ sep) name d after
    (fun x hx => by
      have hx' := hname x hx
      simp [hx'.1, hx'.2.1, hx'.2.2]) (by rcases hd with h | h | h <;> simp [h])
  rw [parseItem, htext, hc]
  simp only [hhead, if_false]
  rw [← hc, htake, hdrop]
  rfl

theorem parseItem_comment (sep : UInt8) (text body : List UInt8) (t : UInt8)
    (after : List UInt8) (htext : text.dropWhile isblank = body ++ t::after)
    (hbody : ∀ c ∈ body, c ≠ 0 ∧ c ≠ sep) (ht : Terminates sep t)
    (hstart : (body ++ [t]).head? = some 35) :
    parseItem sep text = some (.comment, after) := by
  obtain ⟨c, tail, hc⟩ : ∃ c tail, body ++ t::after = c::tail :=
    List.exists_cons_of_ne_nil (by simp)
  have hhead : c = 35 := by
    rw [← head_append body t after, hc] at hstart
    exact Option.some.inj hstart
  obtain ⟨-, hdrop⟩ := takeWhile_stop (fun x => x ≠ 0 && x ≠ sep) body t after
    (fun x hx => by
      have hx' := hbody x hx
      simp [hx'.1, hx'.2]) (by rcases ht with h | h <;> simp [h])
  rw [parseItem, htext, hc]
  simp only [hhead, if_true]
  rw [← hhead, ← hc, hdrop]

/-- Behind a name the text is one record up to where the round of the loop ends. -/
theorem afterName_record (sep : UInt8) (name : CStr) (hname : NameChars sep name)
    (d : UInt8) (hd : d = equals ∨ d = 0 ∨ d = sep) (hstart : Starts (name ++ [d]))
    (after : List UInt8) (item : Item) (rest : List UInt8)
    (h : afterName sep name d after = some (item, rest)) :
    ∃ r, name ++ d::after = r ++ rest ∧ Record sep rest r item := by
  unfold afterName at h
  by_cases h0 : d = 0
  · rw [if_pos h0] at h
    cases h
    exact ⟨name ++ [d], by simp, .bare name d hname hstart (.inl h0) (by rw [h0]; decide) (.inl h0)⟩
  · rw [if_neg h0] at h
    cases after with
    | nil => exact absurd h (by simp)
    | cons e after' =>
      dsimp only at h
      by_cases hdel : e = 0 ∨ d = sep ∨ e = sep
      · rw [if_pos hdel] at h
        cases h
        by_cases heq : d = equals
        · rw [if_pos heq]
          refine ⟨name ++ [equals, e], by simp [heq], .empty name e hname (heq ▸ hstart) ?_⟩
          rcases hdel with he | he | he
          · exact .inl (.inl he)
          · exact .inr (he.symm.trans heq)
          · exact .inl (.inr he)
        · rw [if_neg heq]
          have hs : d = sep := (hd.resolve_left heq).resolve_left h0
          exact ⟨name ++ [d], by simp,
            .bare name d hname hstart (.inr hs) heq (.inr (by simp))⟩
      · rw [if_neg hdel] at h
        push Not at hdel
        obtain ⟨p, hp, heq⟩ := Option.map_eq_some_iff.mp h
        obtain ⟨v, r⟩ := p
        cases heq
        obtain ⟨l, t, htext, ht, hl⟩ := parseValue_escaped_of sep _ v r hp
        have hde : d = equals := hd.resolve_right (by simp [h0, hdel.2.1])
        cases l with
        | nil =>
          -- a value does not begin with its terminator
          rw [List.nil_append] at htext
          have het : e = t := (List.cons.inj htext).1
          rcases ht with ht | ht
          · exact absurd (het.trans ht) hdel.1
          · exact absurd (het.trans ht) hdel.2.2
        | cons c l =>
          refine ⟨name ++ equals::(c::l ++ [t]), ?_,
            .value name c l v t hname (hde ▸ hstart) (hde ▸ hdel.2.1.symm) hl ht⟩
          rw [htext, hde]
          simp

theorem blanks_skipped (blanks : List UInt8) (hb : ∀ c ∈ blanks, isblank c = true)
    (l : List UInt8) (x : UInt8) (r : List UInt8)
    (hl : ∀ c, (l ++ [x]).head? = some c → isblank c = false) :
    (blanks ++ (l ++ x::r)).dropWhile isblank = l ++ x::r := by
  rw [List.dropWhile_append_of_pos hb]
  cases l with
  | nil =>
    have hx : isblank x = false := hl x rfl
    rw [List.nil_append, List.dropWhile_cons_of_neg (by simp [hx])]
  | cons y l =>
    have hy : isblank y = false := hl y rfl
    rw [List.cons_append, List.dropWhile_cons_of_neg (by simp [hy])]

theorem Starts.no_comment {l : List UInt8} (h : Starts l) : l.head? ≠ some 35 :=
  fun h35 => (h 35 h35).2 rfl

/-- A round of the loop on the record that the text begins with. -/
theorem parseItem_record (sep : UInt8) (blanks : List UInt8) (hb : ∀ c ∈ blanks, isblank c = true)
    (r rest : List UInt8) (item : Item) (hr : Record sep rest r item) :
    parseItem sep (blanks ++ (r ++ rest)) = some (item, rest) := by
  have hnul : equals ≠ 0 := by decide
  cases hr with
  | comment body t hbody ht hhead =>
    apply parseItem_comment sep _ body t rest _ hbody ht hhead
    rw [List.append_assoc, List.singleton_append]
    apply blanks_skipped blanks hb
    intro c hc
    rw [hhead] at hc
    rw [← Option.some.inj hc]
    decide
  | bare name t hname hstart ht hequals hnext =>
    have htext : (blanks ++ (name ++ [t] ++ rest)).dropWhile isblank = name ++ t::rest := by
      rw [List.append_assoc, List.singleton_append]
      exact blanks_skipped blanks hb name t rest fun c hc => (hstart c hc).1
    rw [parseItem_named sep _ name t rest htext hname (.inr ht) hstart.no_comment]
    unfold afterName
    by_cases h0 : t = 0
    · rw [if_pos h0]
    · rw [if_neg h0]
      obtain ⟨e, rest', hrest⟩ := List.exists_cons_of_ne_nil (hnext.resolve_left h0)
      rw [hrest]
      dsimp only
      rw [if_pos (.inr (.inl (ht.resolve_left h0))), if_neg hequals]
  | empty name t hname hstart ht =>
    have htext : (blanks ++ (name ++ [equals, t] ++ rest)).dropWhile isblank =
        name ++ equals::(t::rest) := by
      rw [List.append_assoc]
      exact blanks_skipped blanks hb name equals (t::rest) fun c hc => (hstart c hc).1
    have hdel : t = 0 ∨ equals = sep ∨ t = sep := by
      rcases ht with (ht | ht) | ht
      · exact .inl ht
      · exact .inr (.inr ht)
      · exact .inr (.inl ht.symm)
    rw [parseItem_named sep _ name equals (t::rest) htext hname (.inl rfl) hstart.no_comment,
      afterName, if_neg hnul]
    dsimp only
    rw [if_pos hdel, if_pos rfl]
  | value name c l v t hname hstart hsep hv ht =>
    have htext : (blanks ++ (name ++ equals::(c::l ++ [t]) ++ rest)).dropWhile isblank =
        name ++ equals::(c::(l ++ t::rest)) := by
      have happ : name ++ equals::(c::l ++ [t]) ++ rest =
          name ++ equals::(c::(l ++ t::rest)) := by simp
      rw [happ]
      exact blanks_skipped blanks hb name equals _ fun c hc => (hstart c hc).1
    have hplain : ¬ (c = 0 ∨ equals = sep ∨ c = sep) := by
      rintro (h | h | h)
      · exact hv.head.1 h
      · exact hsep h.symm
      · exact hv.head.2 h
    rw [parseItem_named sep _ name equals _ htext hname (.inl rfl) hstart.no_comment,
      afterName, if_neg hnul]
    dsimp only
    rw [if_neg hplain, ← List.cons_append, parseValue_read sep t (c::l) v hv ht rest]
    rfl

/-- Where a scan stops, unless it runs through to the end. -/
theorem scan_stop {α : Type*} (p : α → Bool) (l : List α) (x : α) (post : List α)
    (h : l.dropWhile p = x::post) :
    l = l.takeWhile p ++ x::post ∧ (∀ c ∈ l.takeWhile p, p c = true) ∧ p x = false := by
  have hhead := List.head?_dropWhile_not p l
  rw [h] at hhead
  refine ⟨?_, fun c hc => List.mem_takeWhile_imp hc, by simpa using hhead⟩
  rw [← h, List.takeWhile_append_dropWhile]

/-- What a round of the loop gets through begins with a record. -/
theorem record_parseItem (sep : UInt8) (text : List UInt8) (item : Item) (rest : List UInt8)
    (h : parseItem sep text = some (item, rest)) :
    ∃ blanks r, (∀ c ∈ blanks, isblank c = true) ∧ text = blanks ++ (r ++ rest) ∧
      Record sep rest r item := by
  cases hbody : text.dropWhile isblank with
  | nil =>
    rw [parseItem, hbody] at h
    exact absurd h (by simp)
  | cons c tail =>
    obtain ⟨hsplit, hblanks, hc⟩ := scan_stop isblank text c tail hbody
    suffices hr : ∃ r, c::tail = r ++ rest ∧ Record sep rest r item by
      obtain ⟨r, heq, hr⟩ := hr
      exact ⟨text.takeWhile isblank, r, hblanks, by rw [← heq, ← hsplit], hr⟩
    by_cases h35 : c = 35
    · -- a comment
      rw [parseItem, hbody] at h
      simp only [h35, if_true] at h
      cases hend : (35::tail).dropWhile (fun c => c ≠ 0 && c ≠ sep) with
      | nil =>
        rw [hend] at h
        exact absurd h (by simp)
      | cons t after =>
        obtain ⟨heq, hall, ht⟩ := scan_stop _ _ t after hend
        rw [hend] at h
        cases h
        have hterm : Terminates sep t := by
          by_cases h0 : t = 0
          · exact .inl h0
          · exact .inr (by simpa [h0] using ht)
        refine ⟨(35::tail).takeWhile (fun c => c ≠ 0 && c ≠ sep) ++ [t], ?_,
          .comment _ t (fun x hx => by simpa using hall x hx) hterm ?_⟩
        · rw [h35, List.append_assoc, List.singleton_append, ← heq]
        · rw [← head_append _ t rest, ← heq]
          rfl
    · cases hend : (c::tail).dropWhile (fun c => c ≠ equals && c ≠ 0 && c ≠ sep) with
      | nil =>
        rw [parseItem, hbody] at h
        simp only [h35, if_false] at h
        rw [hend] at h
        exact absurd h (by simp)
      | cons d after =>
        obtain ⟨heq, hall, hd⟩ := scan_stop _ _ d after hend
        have hstop : d = equals ∨ d = 0 ∨ d = sep := by
          by_contra hno
          push Not at hno
          simp [hno.1, hno.2.1, hno.2.2] at hd
        have hhead := head_append ((c::tail).takeWhile
          (fun c => c ≠ equals && c ≠ 0 && c ≠ sep)) d after
        rw [← heq, List.head?_cons] at hhead
        have hname : NameChars sep ((c::tail).takeWhile
            (fun c => c ≠ equals && c ≠ 0 && c ≠ sep)) := fun x hx => by
          have hx' := hall x hx
          simpa [and_assoc] using hx'
        rw [parseItem_named sep text _ d after (hbody.trans heq) hname hstop
          (by rw [← hhead]; simpa using h35)] at h
        obtain ⟨r, hr, hrec⟩ := afterName_record sep _ hname d hstop
          (fun x hx => by
            rw [← hhead] at hx
            rw [← Option.some.inj hx]
            exact ⟨hc, h35⟩) after item rest h
        exact ⟨r, heq.trans hr, hrec⟩

/-! ## The whole text -/

theorem Record.text_ne_nil {sep : UInt8} {rest r : List UInt8} {item : Item}
    (h : Record sep rest r item) : 0 < r.length := by
  cases h with
  | comment body t hbody ht hhead => simp
  | bare name t hname hstart ht hequals hnext => simp
  | empty name t hname hstart ht => simp
  | value name c l v t hname hstart hsep hv ht => simp

/-- The operations of a row of items, and the names that are left. -/
@[grind]
def itemsOps (flag : ℕ) (vars : List (Option CStr)) : List Item → List Op × List (Option CStr)
  | [] => ([], vars)
  | item::items =>
    ((itemOps flag vars item).1 ++ (itemsOps flag (itemOps flag vars item).2 items).1,
      (itemsOps flag (itemOps flag vars item).2 items).2)

/-- The operations that a row of items stands for. -/
def recordOps (flag : ℕ) (vars : List CStr) (items : List Item) : List Op :=
  (itemsOps flag (vars.map some) items).1 ++
    deleteOps flag (itemsOps flag (vars.map some) items).2

theorem importOps_reads (sep : UInt8) (flag : ℕ) (text : List UInt8) (items : List Item)
    (h : Reads sep text items) (fuel : ℕ) (hfuel : text.length < fuel)
    (vars : List (Option CStr)) :
    importOps sep flag fuel text vars = some (itemsOps flag vars items) := by
  induction h generalizing fuel vars with
  | last blanks r rest item hb hr hend =>
    cases fuel with
    | zero => exact absurd hfuel (Nat.not_lt_zero _)
    | succ fuel =>
      rw [importOps, parseItem_record sep blanks hb r rest item hr]
      simp only [itemsOps, List.append_nil]
      rcases hend with hend | hend
      · rw [hend]
        rfl
      · obtain ⟨rest', rfl⟩ : ∃ rest', rest = 0::rest' := by
          cases rest with
          | nil => exact absurd hend (by simp)
          | cons c rest' => exact ⟨rest', by rw [Option.some.inj hend]⟩
        rfl
  | next blanks r rest item items hb hr hmore _ ih =>
    cases fuel with
    | zero => exact absurd hfuel (Nat.not_lt_zero _)
    | succ fuel =>
      rw [importOps, parseItem_record sep blanks hb r rest item hr]
      cases rest with
      | nil => exact absurd rfl hmore.1
      | cons c rest' =>
        have hc : c ≠ 0 := fun h0 => hmore.2 (by rw [h0]; rfl)
        have hlen : (c::rest').length < fuel := by
          have hr' := hr.text_ne_nil
          simp only [List.length_append] at hfuel
          omega
        simp only [Option.bind_some, if_neg hc]
        rw [ih fuel hlen]
        rfl

theorem reads_importOps (sep : UInt8) (flag fuel : ℕ) (text : List UInt8)
    (vars : List (Option CStr)) (q : List Op × List (Option CStr))
    (h : importOps sep flag fuel text vars = some q) : ∃ items, Reads sep text items := by
  induction fuel generalizing text vars q with
  | zero => exact absurd h (by simp [importOps])
  | succ fuel ih =>
    rw [importOps] at h
    obtain ⟨⟨item, rest⟩, hitem, hrest⟩ := Option.bind_eq_some_iff.mp h
    obtain ⟨blanks, r, hb, rfl, hr⟩ := record_parseItem sep text item rest hitem
    cases rest with
    | nil => exact ⟨[item], .last blanks r [] item hb hr (.inl rfl)⟩
    | cons c rest =>
      by_cases hc : c = 0
      · exact ⟨[item], .last blanks r _ item hb hr (.inr (by rw [hc]; rfl))⟩
      · simp only [if_neg hc] at hrest
        obtain ⟨q', hq', -⟩ := Option.map_eq_some_iff.mp hrest
        obtain ⟨items, hitems⟩ := ih _ _ q' hq'
        exact ⟨item::items, .next blanks r _ item items hb hr ⟨by simp, by simpa using hc⟩ hitems⟩

/-- The import stays in its copy of the text and makes the operations of its records. -/
def Contained (env : List UInt8) (sep : UInt8) : Prop :=
  ∀ (flag : ℕ) (vars : List CStr), ∃ ops, himportOps env sep flag vars = some ops ∧
    (∀ (h : Hooks) (htab : Option HTab) (t : HTab), importTable htab env.length flag = some t →
      himportR h htab true env sep flag vars = (run h ops t).map fun r => (1, some r.2)) ∧
    ∀ items, Reads sep env items → ops = recordOps flag vars items

/-- `himport_r` reads only its input exactly when that is a row of records. -/
theorem himportR_contained_iff (env : List UInt8) (sep : UInt8) :
    Contained env sep ↔ ∃ items, Reads sep env items := by
  constructor
  · intro h
    obtain ⟨ops, hops, -, -⟩ := h 0 []
    obtain ⟨q, hq, -⟩ := Option.map_eq_some_iff.mp hops
    exact reads_importOps sep 0 _ env _ q hq
  · rintro ⟨items, hitems⟩ flag vars
    have hops (items' : List Item) (h : Reads sep env items') :
        himportOps env sep flag vars = some (recordOps flag vars items') := by
      rw [himportOps, importOps_reads sep flag env items' h _ (Nat.lt_succ_self _)]
      rfl
    refine ⟨recordOps flag vars items, hops items hitems, fun h htab t ht => ?_, fun items' h' => ?_⟩
    · rw [himportR_run h htab env sep flag vars t ht, hops items hitems]
      rfl
    · exact Option.some.inj ((hops items hitems).symm.trans (hops items' h'))

/-- The text `a=1` has no terminator: the value loop runs off its end. -/
theorem unterminated_value : ¬ Contained [97, 61, 49] 10 := by
  intro h
  obtain ⟨ops, hops, -, -⟩ := h 0 []
  have hnone : himportOps [97, 61, 49] 10 0 [] = none := rfl
  rw [hnone] at hops
  exact absurd hops (by simp)

end UBoot.EnvText
