import UBoot.ByteStore

/-!
# Scanning the packed environment

`fw_getenv`, `fw_env_write` and `getenv_f` go over the data area of an
environment image in the same way: they look for the end of an entry, compare
its name, and go on behind it. A well-formed area is a list of `name=value`
strings, closed by an empty one.
-/

set_option autoImplicit false

namespace UBoot.EnvScan
open UBoot.ByteStore

/-! ## The loops -/

/-- The end of the string at `p`, or `none` if it reaches the end of the area. -/
@[grind]
def strEnd (data : Memory) (size : ℕ) : ℕ → ℕ → Option ℕ
  | 0, _ => none
  | fuel+1, p =>
    if data p = 0 then some p else if size ≤ p then none else strEnd data size fuel (p+1)

/-- `envmatch`: where the value starts if the name is that of the entry. The comparison
runs on behind the end of the name, which is the outer `none`, if the entry ends there too. -/
@[grind]
def envmatch (data : Memory) : List UInt8 → ℕ → Option (Option ℕ)
  | [], p => if data p = 0 then none else some (if data p = 61 then some (p+1) else none)
  | c::name, p =>
    if c = data p then if c = 61 then some (some (p+1)) else envmatch data name (p+1)
    else some none

/-- How a scan ends, with the entry it is at and the end of the last entry seen. -/
inductive Scan where
  | unterminated
  | absent (env nxt : ℕ)
  | present (env nxt val : ℕ)
  deriving DecidableEq, Repr

@[grind]
def scan (data : Memory) (size : ℕ) (name : List UInt8) : ℕ → ℕ → ℕ → Option Scan
  | 0, _, _ => none
  | fuel+1, env, nxt =>
    if data env = 0 then some (.absent env nxt)
    else match strEnd data size (size+1) env with
      | none => some .unterminated
      | some nxt => (envmatch data name env).bind fun
        | none => scan data size name fuel (nxt+1) nxt
        | some val => some (.present env nxt val)

/-! ## Well-formed areas -/

abbrev Pair := List UInt8 × List UInt8

def line (e : Pair) : List UInt8 := e.1 ++ 61::(e.2 ++ [0])

def packed (es : List Pair) : List UInt8 := es.flatMap line

/-- An empty area has its two terminators too. -/
def image (es : List Pair) : List UInt8 := if es = [] then [0, 0] else packed es ++ [0]

def Proper (e : Pair) : Prop := 0 ∉ e.1 ∧ 61 ∉ e.1 ∧ 0 ∉ e.2

structure Image (data : Memory) (size : ℕ) (es : List Pair) : Prop where
  proper : ∀ e ∈ es, Proper e
  holds : Holds data 0 (image es)
  fits : (image es).length ≤ size

/-- The value of the first entry of the name. -/
@[grind]
def lookup (name : List UInt8) : List Pair → Option (List UInt8)
  | [] => none
  | e::es => if e.1 = name then some e.2 else lookup name es

@[simp] theorem line_length (e : Pair) : (line e).length = e.1.length+e.2.length+2 := by
  simp only [line, List.length_append, List.length_cons, List.length_nil]
  omega

theorem line_head (e : Pair) (he : Proper e) : ∃ c s, line e = c::s ∧ c ≠ 0 := by
  obtain ⟨k, v⟩ := e
  cases k with
  | nil => exact ⟨61, v ++ [0], rfl, by decide⟩
  | cons c k => exact ⟨c, _, rfl, fun hc => he.1 (hc ▸ List.mem_cons_self ..)⟩

@[simp] theorem packed_nil : packed [] = [] := rfl

@[simp] theorem packed_cons (e : Pair) (es : List Pair) :
    packed (e::es) = line e ++ packed es := rfl

@[simp] theorem packed_append (es fs : List Pair) : packed (es++fs) = packed es ++ packed fs :=
  List.flatMap_append

theorem packed_length_ge (es : List Pair) : 2*es.length ≤ (packed es).length := by
  induction es with
  | nil => simp
  | cons e es ih =>
    rw [packed_cons, List.length_append, line_length, List.length_cons]
    omega

theorem packed_prefix_image (es : List Pair) : packed es ++ [0] <+: image es := by
  by_cases h : es = []
  · subst h
    exact ⟨[0], rfl⟩
  · rw [image, if_neg h]

theorem image_length (es : List Pair) : (packed es).length+1 ≤ (image es).length := by
  simpa using (packed_prefix_image es).length_le

theorem image_length_le (es : List Pair) : (image es).length ≤ (packed es).length+2 := by
  by_cases h : es = []
  · subst h
    rfl
  · rw [image, if_neg h]
    simp

theorem Image.length_lt {data : Memory} {size : ℕ} {es : List Pair} (hi : Image data size es) :
    (packed es).length < size := (image_length es).trans hi.fits

/-- An area is well formed if its entries are, and there is room for both terminators. -/
theorem image_of_packed (data : Memory) (size : ℕ) (es fs : List Pair)
    (hp : ∀ e ∈ es++fs, Proper e) (h : Holds data 0 (packed es ++ image fs))
    (hs : (packed es ++ image fs).length ≤ size) : Image data size (es++fs) := by
  have hpre : image (es++fs) <+: packed es ++ image fs := by
    by_cases he : es = []
    · subst he
      exact List.prefix_rfl
    · by_cases hf : fs = []
      · subst hf
        rw [List.append_nil, image, if_neg he]
        exact ⟨[0], by simp [image]⟩
      · rw [image, if_neg (by simp [he]), image, if_neg hf, packed_append, List.append_assoc]
  exact ⟨hp, holds_of_start data 0 _ _ h hpre, hpre.length_le.trans hs⟩

/-! ## The loops on a well-formed area -/

theorem strEnd_text (data : Memory) (size : ℕ) (s : List UInt8) (hs : 0 ∉ s) (fuel p : ℕ)
    (h : Holds data p (s++[0])) (hp : p+s.length ≤ size) (hf : s.length < fuel) :
    strEnd data size fuel p = some (p+s.length) := by
  induction s generalizing fuel p with
  | nil =>
    cases fuel with
    | zero => omega
    | succ fuel => rw [strEnd, if_pos h.1, List.length_nil, Nat.add_zero]
  | cons c s ih =>
    rw [List.length_cons] at hp hf ⊢
    rw [List.mem_cons, not_or] at hs
    cases fuel with
    | zero => omega
    | succ fuel =>
      have hc : data p ≠ 0 := by
        rw [h.1]
        exact Ne.symm hs.1
      rw [strEnd, if_neg hc, if_neg (by omega), ih hs.2 fuel (p+1) h.2 (by omega) (by omega)]
      congr 1
      omega

theorem strEnd_line (data : Memory) (size : ℕ) (e : Pair) (he : Proper e) (p : ℕ)
    (h : Holds data p (line e)) (hp : p+(line e).length ≤ size+1) :
    strEnd data size (size+1) p = some (p+(e.1.length+e.2.length+1)) := by
  have hl : (e.1 ++ 61::e.2).length = e.1.length+e.2.length+1 := by
    simp only [List.length_append, List.length_cons]
    omega
  rw [line_length] at hp
  rw [← hl]
  apply strEnd_text
  · simp [he.1, he.2.2]
  · simpa [line] using h
  · omega
  · omega

theorem envmatch_text (data : Memory) (name k t : List UInt8) (hn : 61 ∉ name) (hk : 0 ∉ k)
    (hk' : 61 ∉ k) (p : ℕ) (h : Holds data p (k ++ 61::t)) :
    envmatch data name p = some (if k = name then some (p+name.length+1) else none) := by
  induction name generalizing k p with
  | nil =>
    cases k with
    | nil => rw [envmatch, h.1, if_neg (by decide), if_pos rfl, if_pos rfl, List.length_nil]
    | cons d k =>
      rw [List.mem_cons, not_or] at hk hk'
      rw [envmatch, h.1, if_neg (Ne.symm hk.1), if_neg (Ne.symm hk'.1), if_neg (by simp)]
  | cons c name ih =>
    rw [List.mem_cons, not_or] at hn
    cases k with
    | nil => rw [envmatch, h.1, if_neg (Ne.symm hn.1), if_neg (by simp)]
    | cons d k =>
      rw [List.mem_cons, not_or] at hk hk'
      rw [envmatch, h.1]
      by_cases hc : c = d
      · rw [if_pos hc, if_neg (Ne.symm hn.1), ih k hn.2 hk.2 hk'.2 (p+1) h.2, List.length_cons, hc,
          show p+1+name.length+1 = p+(name.length+1)+1 by omega]
        simp only [List.cons.injEq, true_and]
      · rw [if_neg hc, if_neg (by simp [Ne.symm hc])]

/-- Where a scan for the name ends that starts at `p`, the start of the entries. -/
@[grind]
def located (name : List UInt8) : List Pair → ℕ → ℕ → Scan
  | [], p, nxt => .absent p nxt
  | e::es, p, _ =>
    if e.1 = name then .present p (p+(e.1.length+e.2.length+1)) (p+name.length+1)
    else located name es (p+(e.1.length+e.2.length+1)+1) (p+(e.1.length+e.2.length+1))

theorem scan_packed (data : Memory) (size : ℕ) (name : List UInt8) (hn : 61 ∉ name)
    (es : List Pair) (hp : ∀ e ∈ es, Proper e) (fuel p nxt : ℕ)
    (h : Holds data p (packed es ++ [0])) (hs : p+(packed es).length ≤ size+1)
    (hf : es.length < fuel) : scan data size name fuel p nxt = some (located name es p nxt) := by
  induction es generalizing fuel p nxt with
  | nil =>
    cases fuel with
    | zero => omega
    | succ fuel => rw [scan, if_pos h.1, located]
  | cons e es ih =>
    rw [List.length_cons] at hf
    rw [packed_cons, List.append_assoc, holds_append, line_length] at h
    rw [packed_cons, List.length_append, line_length] at hs
    have he : Proper e := hp e (List.mem_cons_self ..)
    cases fuel with
    | zero => omega
    | succ fuel =>
      have h0 : data p ≠ 0 := by
        obtain ⟨c, s, hl, hc⟩ := line_head e he
        rw [hl] at h
        rw [h.1.1]
        exact hc
      rw [scan, if_neg h0, strEnd_line data size e he p h.1 (by rw [line_length]; omega), located]
      simp only [envmatch_text data name e.1 _ hn he.1 he.2.1 p h.1]
      by_cases hm : e.1 = name
      · simp only [if_pos hm, Option.bind_some]
      · simp only [if_neg hm, Option.bind_some]
        apply ih (fun f hf => hp f (List.mem_cons_of_mem e hf))
        · rw [show p+(e.1.length+e.2.length+1)+1 = p+(e.1.length+e.2.length+2) by omega]
          exact h.2
        · omega
        · omega

theorem Image.scan_eq (data : Memory) (size : ℕ) (es : List Pair) (hi : Image data size es)
    (name : List UInt8) (hn : 61 ∉ name) :
    scan data size name (size+2) 0 0 = some (located name es 0 0) := by
  have hl := hi.length_lt
  have hg := packed_length_ge es
  exact scan_packed data size name hn es hi.proper (size+2) 0 0
    (holds_of_start data 0 _ _ hi.holds (packed_prefix_image es)) (by omega) (by omega)

theorem lookup_append (name : List UInt8) (es fs : List Pair) :
    lookup name (es++fs) = (lookup name es).or (lookup name fs) := by
  induction es with
  | nil => rfl
  | cons e es ih =>
    rw [List.cons_append, lookup, lookup]
    by_cases he : e.1 = name
    · rw [if_pos he, if_pos he, Option.some_or]
    · rw [if_neg he, if_neg he, ih]

/-- A scan ends behind the entries, or at the first one of the name. -/
theorem located_cases (name : List UInt8) (es : List Pair) (p nxt : ℕ) :
    (lookup name es = none ∧ ∃ env nxt', located name es p nxt = .absent env nxt') ∨
    ∃ es₁ v es₂, es = es₁ ++ (name, v)::es₂ ∧ lookup name es₁ = none ∧
      located name es p nxt = .present (p+(packed es₁).length)
        (p+(packed es₁).length+(name.length+v.length+1))
        (p+(packed es₁).length+name.length+1) := by
  induction es generalizing p nxt with
  | nil => exact .inl ⟨rfl, p, nxt, rfl⟩
  | cons e es ih =>
    obtain ⟨k, v⟩ := e
    by_cases hk : k = name
    · subst hk
      exact .inr ⟨[], v, es, rfl, rfl, by simp [located]⟩
    · simp only [lookup, located, if_neg hk]
      rcases ih (p+(k.length+v.length+1)+1) (p+(k.length+v.length+1)) with
        h | ⟨es₁, w, es₂, he, hl, hs⟩
      · exact .inl h
      · refine .inr ⟨(k, v)::es₁, w, es₂, by rw [he, List.cons_append], ?_, ?_⟩
        · rw [lookup, if_neg hk, hl]
        · have hp : (packed ((k, v)::es₁)).length = k.length+v.length+2+(packed es₁).length := by
            rw [packed_cons, List.length_append, line_length]
          rw [hs, hp]
          congr 1 <;> omega

theorem lookup_split (name v : List UInt8) (es₁ es₂ : List Pair) (h : lookup name es₁ = none) :
    lookup name (es₁ ++ (name, v)::es₂) = some v := by
  rw [lookup_append, h, lookup, if_pos rfl, Option.none_or]

/-- What a scan over the entries finds. -/
theorem scan_lookup (data : Memory) (size : ℕ) (es : List Pair) (hp : ∀ e ∈ es, Proper e)
    (h : Holds data 0 (packed es ++ [0])) (hs : (packed es).length ≤ size) (name : List UInt8)
    (hn : 61 ∉ name) :
    (lookup name es = none ∧ ∃ env nxt, scan data size name (size+2) 0 0 = some (.absent env nxt)) ∨
    ∃ v env nxt val, lookup name es = some v ∧
      scan data size name (size+2) 0 0 = some (.present env nxt val) ∧
      load data val (nxt-val) = v := by
  have hg := packed_length_ge es
  rw [scan_packed data size name hn es hp (size+2) 0 0 h (by omega) (by omega)]
  rcases located_cases name es 0 0 with ⟨hl, env, nxt, hs⟩ | ⟨es₁, v, es₂, rfl, hl, hs⟩
  · exact .inl ⟨hl, env, nxt, by rw [hs]⟩
  · refine .inr ⟨v, _, _, _, lookup_split name v es₁ es₂ hl, by rw [hs], ?_⟩
    rw [packed_append, packed_cons, List.append_assoc, List.append_assoc, holds_append, line,
      List.append_assoc, holds_append, List.cons_append, Holds, List.append_assoc,
      holds_append] at h
    have hload := h.2.2.2.1.load_eq
    rw [show 0+(packed es₁).length+(name.length+v.length+1)-(0+(packed es₁).length+name.length+1) =
      v.length by omega]
    exact hload

end UBoot.EnvScan
