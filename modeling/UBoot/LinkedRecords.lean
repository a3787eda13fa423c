import Mathlib.Tactic

/-!
# Doubly linked records inside a byte array

Records of eight bytes start at multiples of eight: a limit, the index of the
next record and the index of the previous one, each of 16 bits, low byte
first. A segment is a list of records whose links agree; it depends on the
bytes of its own records only, so a write elsewhere keeps it.
-/

set_option autoImplicit false

namespace UBoot.LinkedRecords

abbrev Bytes := ℕ → UInt8

def get16 (b : Bytes) (a : ℕ) : ℕ := (b a).toNat+(b (a+1)).toNat*256

def put16 (b : Bytes) (a v : ℕ) : Bytes :=
  fun x => if x = a then UInt8.ofNat v else if x = a+1 then UInt8.ofNat (v/256) else b x

theorem get16_put16_same (b : Bytes) (a v : ℕ) (hv : v < 65536) : get16 (put16 b a v) a = v := by
  simp [get16, put16]
  omega

theorem put16_other (b : Bytes) (a v x : ℕ) (h : x < a ∨ a+1 < x) : put16 b a v x = b x := by
  unfold put16
  rw [if_neg (by omega), if_neg (by omega)]

theorem get16_congr (b b' : Bytes) (a : ℕ) (h : b' a = b a) (h' : b' (a+1) = b (a+1)) :
    get16 b' a = get16 b a := by
  rw [get16, get16, h, h']

theorem get16_put16_other (b : Bytes) (a v c : ℕ) (h : a+2 ≤ c ∨ c+2 ≤ a) :
    get16 (put16 b a v) c = get16 b c :=
  get16_congr _ _ _ (put16_other b a v c (by omega)) (put16_other b a v (c+1) (by omega))

def limit (b : Bytes) (i : ℕ) : ℕ := get16 b (8*i)
def next (b : Bytes) (i : ℕ) : ℕ := get16 b (8*i+2)
def prev (b : Bytes) (i : ℕ) : ℕ := get16 b (8*i+4)

def setLimit (b : Bytes) (i v : ℕ) : Bytes := put16 b (8*i) v
def setNext (b : Bytes) (i v : ℕ) : Bytes := put16 b (8*i+2) v
def setPrev (b : Bytes) (i v : ℕ) : Bytes := put16 b (8*i+4) v

def copyRecord (b : Bytes) (n i : ℕ) : Bytes :=
  fun x => if 8*n ≤ x ∧ x < 8*n+8 then b (8*i+(x-8*n)) else b x

def copyIn (b : Bytes) (s l : ℕ) (src : Bytes) : Bytes :=
  fun x => if s ≤ x ∧ x < s+l then src (x-s) else b x

/-! ## Fields -/

section Fields

variable (b : Bytes) (i v : ℕ)

@[simp] theorem limit_setLimit (hv : v < 65536) : limit (setLimit b i v) i = v :=
  get16_put16_same b (8*i) v hv

@[simp] theorem next_setNext (hv : v < 65536) : next (setNext b i v) i = v :=
  get16_put16_same b (8*i+2) v hv

@[simp] theorem prev_setPrev (hv : v < 65536) : prev (setPrev b i v) i = v :=
  get16_put16_same b (8*i+4) v hv

@[simp] theorem next_setLimit : next (setLimit b i v) i = next b i :=
  get16_put16_other b (8*i) v (8*i+2) (by omega)

@[simp] theorem prev_setLimit : prev (setLimit b i v) i = prev b i :=
  get16_put16_other b (8*i) v (8*i+4) (by omega)

@[simp] theorem limit_setNext : limit (setNext b i v) i = limit b i :=
  get16_put16_other b (8*i+2) v (8*i) (by omega)

@[simp] theorem prev_setNext : prev (setNext b i v) i = prev b i :=
  get16_put16_other b (8*i+2) v (8*i+4) (by omega)

@[simp] theorem limit_setPrev : limit (setPrev b i v) i = limit b i :=
  get16_put16_other b (8*i+4) v (8*i) (by omega)

@[simp] theorem next_setPrev : next (setPrev b i v) i = next b i :=
  get16_put16_other b (8*i+4) v (8*i+2) (by omega)

end Fields

/-! ## Frames -/

/-- The bytes of a record are the same. -/
def Same (b b' : Bytes) (i : ℕ) : Prop := ∀ x, 8*i ≤ x → x < 8*i+8 → b' x = b x

theorem Same.trans (b b' b'' : Bytes) (i : ℕ) (h : Same b b' i) (h' : Same b' b'' i) : Same b b'' i :=
  fun x h1 h2 => (h' x h1 h2).trans (h x h1 h2)

theorem same_fields (b b' : Bytes) (i : ℕ) (h : Same b b' i) :
    limit b' i = limit b i ∧ next b' i = next b i ∧ prev b' i = prev b i :=
  ⟨get16_congr _ _ _ (h _ (by omega) (by omega)) (h _ (by omega) (by omega)),
    get16_congr _ _ _ (h _ (by omega) (by omega)) (h _ (by omega) (by omega)),
    get16_congr _ _ _ (h _ (by omega) (by omega)) (h _ (by omega) (by omega))⟩

theorem same_setLimit (b : Bytes) (i j v : ℕ) (h : i ≠ j) : Same b (setLimit b j v) i :=
  fun x h1 h2 => put16_other b _ v x (by omega)

theorem same_setNext (b : Bytes) (i j v : ℕ) (h : i ≠ j) : Same b (setNext b j v) i :=
  fun x h1 h2 => put16_other b _ v x (by omega)

theorem same_setPrev (b : Bytes) (i j v : ℕ) (h : i ≠ j) : Same b (setPrev b j v) i :=
  fun x h1 h2 => put16_other b _ v x (by omega)

theorem same_copyRecord (b : Bytes) (i n j : ℕ) (h : i ≠ n) : Same b (copyRecord b n j) i :=
  fun x h1 h2 => if_neg (by omega)

theorem same_copyIn (b : Bytes) (i s l : ℕ) (src : Bytes) (h : 8*i+8 ≤ s ∨ s+l ≤ 8*i) :
    Same b (copyIn b s l src) i :=
  fun x h1 h2 => if_neg (by omega)

theorem copyRecord_fields (b : Bytes) (n i : ℕ) : limit (copyRecord b n i) n = limit b i ∧
    next (copyRecord b n i) n = next b i ∧ prev (copyRecord b n i) n = prev b i := by
  have h : ∀ k < 8, copyRecord b n i (8*n+k) = b (8*i+k) := by
    intro k hk
    unfold copyRecord
    rw [if_pos (by omega)]
    congr 1
    omega
  refine ⟨?_, ?_, ?_⟩
  · have h0 := h 0 (by omega)
    have h1 := h 1 (by omega)
    simp only [Nat.add_zero] at h0
    rw [limit, limit, get16, get16, h0, h1]
  · have h2 := h 2 (by omega)
    have h3 := h 3 (by omega)
    rw [next, next, get16, get16, h2, Nat.add_assoc, Nat.add_assoc, h3]
  · have h4 := h 4 (by omega)
    have h5 := h 5 (by omega)
    rw [prev, prev, get16, get16, h4, Nat.add_assoc, Nat.add_assoc, h5]

/-! ## Segments -/

/-- The index of the first record, or of what follows an empty segment. -/
def headIx : List (ℕ × ℕ) → ℕ → ℕ
  | [], n => n
  | (i, _)::_, _ => i

/-- The index of the last record, or of what stands before an empty segment. -/
def lastIx : List (ℕ × ℕ) → ℕ → ℕ
  | [], p => p
  | (i, _)::rest, _ => lastIx rest i

/-- The records with the given indices and limits, linked to each other, to
`p` before them and to `n` behind them. -/
def Seg (b : Bytes) : ℕ → List (ℕ × ℕ) → ℕ → Prop
  | _, [], _ => True
  | p, (i, l)::rest, n => limit b i = l ∧ prev b i = p ∧ next b i = headIx rest n ∧ Seg b i rest n

def indices (hs : List (ℕ × ℕ)) : List ℕ := hs.map Prod.fst

theorem headIx_append (xs ys : List (ℕ × ℕ)) (n : ℕ) :
    headIx (xs ++ ys) n = headIx xs (headIx ys n) := by
  cases xs with
  | nil => rfl
  | cons x xs => rfl

theorem seg_append (b : Bytes) (xs ys : List (ℕ × ℕ)) (p n : ℕ) :
    Seg b p (xs ++ ys) n ↔ Seg b p xs (headIx ys n) ∧ Seg b (lastIx xs p) ys n := by
  induction xs generalizing p with
  | nil => simp [Seg, lastIx]
  | cons x xs ih =>
    obtain ⟨i, l⟩ := x
    simp only [List.cons_append, Seg, lastIx, ih, headIx_append, and_assoc]

/-- A segment depends on the bytes of its records. -/
theorem seg_congr (b b' : Bytes) (xs : List (ℕ × ℕ)) (p n : ℕ)
    (h : ∀ i ∈ indices xs, Same b b' i) (hs : Seg b p xs n) : Seg b' p xs n := by
  induction xs generalizing p with
  | nil => trivial
  | cons x xs ih =>
    obtain ⟨i, l⟩ := x
    obtain ⟨h1, h2, h3, h4⟩ := hs
    obtain ⟨e1, e2, e3⟩ := same_fields b b' i (h i (by simp [indices]))
    exact ⟨e1.trans h1, e3.trans h2, e2.trans h3,
      ih i (fun j hj => h j (by simp [indices] at hj ⊢; exact .inr hj)) h4⟩

theorem lastIx_mem (xs : List (ℕ × ℕ)) (p : ℕ) (h : xs ≠ []) : lastIx xs p ∈ indices xs := by
  induction xs generalizing p with
  | nil => exact absurd rfl h
  | cons x xs ih =>
    cases xs with
    | nil => simp [lastIx, indices]
    | cons y ys =>
      have := ih x.1 (by simp)
      simp only [lastIx, indices, List.map_cons] at this ⊢
      exact List.mem_cons_of_mem _ this

theorem headIx_mem (xs : List (ℕ × ℕ)) (n : ℕ) (h : xs ≠ []) : headIx xs n ∈ indices xs := by
  cases xs with
  | nil => exact absurd rfl h
  | cons x xs => simp [headIx, indices]

/-- Redirecting the link out of a segment. -/
theorem seg_setNext (b : Bytes) (xs : List (ℕ × ℕ)) (p n n' : ℕ) (hn : n' < 65536)
    (hne : xs ≠ []) (hd : (indices xs).Nodup) (h : Seg b p xs n) :
    Seg (setNext b (lastIx xs p) n') p xs n' := by
  induction xs generalizing p with
  | nil => exact absurd rfl hne
  | cons x xs ih =>
    obtain ⟨i, l⟩ := x
    obtain ⟨h1, h2, h3, h4⟩ := h
    obtain ⟨hi, hd'⟩ := List.nodup_cons.mp hd
    cases xs with
    | nil => exact ⟨by simpa [lastIx] using h1, by simpa [lastIx] using h2, next_setNext b i n' hn,
        trivial⟩
    | cons y ys =>
      have hmem := lastIx_mem (y::ys) i (by simp)
      have hsame := same_setNext b i (lastIx (y::ys) i) n' (fun he => hi (he ▸ hmem))
      obtain ⟨e1, e2, e3⟩ := same_fields _ _ i hsame
      exact ⟨e1.trans h1, e3.trans h2, e2.trans h3, ih i (by simp) hd' h4⟩

/-- Redirecting the link back from a segment. -/
theorem seg_setPrev (b : Bytes) (xs : List (ℕ × ℕ)) (p p' n : ℕ) (hp : p' < 65536)
    (hne : xs ≠ []) (hd : (indices xs).Nodup) (h : Seg b p xs n) :
    Seg (setPrev b (headIx xs n) p') p' xs n := by
  cases xs with
  | nil => exact absurd rfl hne
  | cons x xs =>
    obtain ⟨i, l⟩ := x
    obtain ⟨h1, h2, h3, h4⟩ := h
    obtain ⟨hi, -⟩ := List.nodup_cons.mp hd
    refine ⟨by simpa [headIx] using h1, prev_setPrev b i p' hp, by simpa [headIx] using h3, ?_⟩
    exact seg_congr b _ xs i n (fun j hj => same_setPrev b j i p' fun he => hi (he ▸ hj)) h4

end UBoot.LinkedRecords
