import UBoot.EnvText
import UBoot.HashTableMap

/-!
# Searching the table for a string

`hmatch_r` and `hstrstr_r` are called again with the index that they have returned. They
stop in front of the last slot, so an entry there is never found. `env grep` marks what it
has printed in an array that is one byte short, and goes on to the null pointer behind its
arguments.
-/

set_option autoImplicit false

namespace UBoot.HashTable

/-! ## The searches -/

/-- The loop over the slots in front of the last one; `none` is an access through a null pointer. -/
@[grind]
def nextSlot (p : Entry → Option Bool) (t : HTab) : ℕ → ℕ → Option ℕ
  | 0, _ => some 0
  | left+1, idx =>
    if (t.table idx).used ≤ 0 then nextSlot p t left (idx+1)
    else match p (t.table idx).entry with
      | none => none
      | some true => some idx
      | some false => nextSlot p t left (idx+1)

def keyStarts (s : CStr) (e : Entry) : Option Bool := e.key.map fun key => s.isPrefixOf key

/-- The value is looked at when the key does not contain the string. -/
def entryContains (s : CStr) (e : Entry) : Option Bool :=
  match e.key with
  | none => none
  | some key => if s <:+: key then some true else e.data.map fun data => decide (s <:+: data)

def hmatchR (s : CStr) (t : HTab) (lastIdx : ℕ) : Option ℕ :=
  nextSlot (keyStarts s) t (t.size-(lastIdx+1)) (lastIdx+1)

def hstrstrR (s : CStr) (t : HTab) (lastIdx : ℕ) : Option ℕ :=
  nextSlot (entryContains s) t (t.size-(lastIdx+1)) (lastIdx+1)

/-- The indices that come one after the other, each fed back, until the 0. -/
@[grind]
def collect (next : ℕ → Option ℕ) : ℕ → ℕ → Option (List ℕ)
  | 0, _ => none
  | turns+1, idx =>
    match next idx with
    | none => none
    | some 0 => some []
    | some i => (collect next turns i).map (i::·)

/-! ## `env_complete` and `do_env_grep` -/

def keyAt (t : HTab) (i : ℕ) : CStr := EnvText.deref (t.table i).entry.key

/-- The names in the order of their slots, and the index that the loop ends with. -/
@[grind]
def completeLoop (var : CStr) (maxv : ℤ) (t : HTab) : ℕ → ℕ → ℕ → ℤ → Option (List CStr × ℕ)
  | 0, _, _, _ => none
  | turns+1, idx, found, bufsz =>
    match hmatchR var t idx with
    | none => none
    | some 0 => some ([], 0)
    | some i =>
      if maxv-2 ≤ found ∨ bufsz < (keyAt t i).length+1 then some ([], i)
      else (completeLoop var maxv t turns i (found+1) (bufsz-((keyAt t i).length+1))).map fun r =>
        (keyAt t i::r.1, r.2)

def qsortNames (l : List CStr) : List CStr :=
  ShellSort.front l.length
    (ShellSort.sort (fun a b => EnvText.strcmp a b ≤ 0) l.length (fun i => l.getD i []))

/-- The names, sorted, and whether dots follow them. -/
def envComplete (var : CStr) (maxv bufsz : ℤ) (t : HTab) : Option (List CStr × Bool) :=
  (completeLoop var maxv t (t.size+1) 0 0 bufsz).map fun r => (qsortNames r.1, r.2 ≠ 0)

structure Grep where
  matched : ℕ → Bool
  printed : List ℕ
  rcode : ℤ

def grepHit (g : Grep) (idx : ℕ) : Grep where
  matched i := i = idx || g.matched i
  printed := if g.matched idx then g.printed else g.printed ++ [idx]
  rcode := 0

def grepArg (t : HTab) (g : Grep) (arg : CStr) : Option Grep :=
  (collect (hstrstrR arg t) (t.size+1) 0).map fun l => l.foldl grepHit g

/-- The array has no byte for the last slots: what it is taken to hold there is `stale`. -/
def grepInit (t : HTab) (stale : ℕ → Bool) : Grep where
  matched i := 8*(t.size/8) ≤ i && stale i
  printed := []
  rcode := 1

/-- The slots that are printed for the arguments; `zero` is the string at the address 0, which
the pointer behind the last argument has. -/
def doEnvGrep (args : List CStr) (zero : CStr) (stale : ℕ → Bool) (t : HTab) : Option Grep :=
  (args ++ [zero]).foldlM (grepArg t) (grepInit t stale)

/-! ## One pass over the slots -/

section Scan
variable (p : Entry → Option Bool) (t : HTab)

def Hits (i : ℕ) : Prop := 0 < (t.table i).used ∧ p (t.table i).entry = some true

def Faults (i : ℕ) : Prop := 0 < (t.table i).used ∧ p (t.table i).entry = none

@[grind]
def scan : ℕ → ℕ → Option (List ℕ)
  | 0, _ => some []
  | left+1, idx =>
    if (t.table idx).used ≤ 0 then scan left (idx+1)
    else match p (t.table idx).entry with
      | none => none
      | some true => (scan left (idx+1)).map (idx::·)
      | some false => scan left (idx+1)

theorem nextSlot_scan (left idx : ℕ) (hidx : 0 < idx) :
    (nextSlot p t left idx = none ∧ scan p t left idx = none) ∨
    (nextSlot p t left idx = some 0 ∧ scan p t left idx = some []) ∨
    ∃ i, idx ≤ i ∧ i < idx+left ∧ nextSlot p t left idx = some i ∧
      scan p t left idx = (scan p t (idx+left-(i+1)) (i+1)).map (i::·) := by
  induction left generalizing idx with
  | zero => exact .inr (.inl ⟨rfl, rfl⟩)
  | succ left ih =>
    have hrest := ih (idx+1) (by omega)
    rw [nextSlot, scan]
    by_cases hu : (t.table idx).used ≤ 0
    · rw [if_pos hu, if_pos hu]
      rcases hrest with h | h | ⟨i, hi, hlt, hn, hs⟩
      · exact .inl h
      · exact .inr (.inl h)
      · exact .inr (.inr ⟨i, by omega, by omega, hn, by rw [hs, show idx+1+left = idx+(left+1) by omega]⟩)
    · rw [if_neg hu, if_neg hu]
      cases hp : p (t.table idx).entry with
      | none => exact .inl ⟨rfl, rfl⟩
      | some hit =>
        cases hit with
        | true =>
          exact .inr (.inr ⟨idx, le_rfl, by omega, rfl, by rw [show idx+(left+1)-(idx+1) = left by omega]⟩)
        | false =>
          rcases hrest with h | h | ⟨i, hi, hlt, hn, hs⟩
          · exact .inl h
          · exact .inr (.inl h)
          · exact .inr (.inr ⟨i, by omega, by omega, hn, by
              rw [hs, show idx+1+left = idx+(left+1) by omega]⟩)

/-- Feeding back each index goes once over the slots. -/
theorem collect_scan (turns last : ℕ) (h : t.size-(last+1) < turns) :
    collect (fun i => nextSlot p t (t.size-(i+1)) (i+1)) turns last =
      scan p t (t.size-(last+1)) (last+1) := by
  induction turns generalizing last with
  | zero => exact absurd h (Nat.not_lt_zero _)
  | succ turns ih =>
    rw [collect]
    rcases nextSlot_scan p t (t.size-(last+1)) (last+1) (by omega) with
      ⟨hn, hs⟩ | ⟨hn, hs⟩ | ⟨i, hi, hlt, hn, hs⟩
    · rw [hn, hs]
    · rw [hn, hs]
      rfl
    · obtain ⟨k, rfl⟩ : ∃ k, i = k+1 := ⟨i-1, by omega⟩
      rw [hn, hs, show last+1+(t.size-(last+1))-(k+1+1) = t.size-(k+1+1) by omega,
        ← ih (k+1) (by omega)]
      rfl

theorem scan_some (left idx : ℕ) (l : List ℕ) (h : scan p t left idx = some l) :
    l.Pairwise (· < ·) ∧ (∀ i, i ∈ l ↔ idx ≤ i ∧ i < idx+left ∧ Hits p t i) := by
  induction left generalizing idx l with
  | zero =>
    cases h
    refine ⟨List.Pairwise.nil, fun i => ?_⟩
    simp only [List.not_mem_nil, false_iff, not_and]
    omega
  | succ left ih =>
    have hskip : ¬ Hits p t idx → scan p t left (idx+1) = some l →
        l.Pairwise (· < ·) ∧ ∀ i, i ∈ l ↔ idx ≤ i ∧ i < idx+(left+1) ∧ Hits p t i := by
      intro hnot hs
      obtain ⟨hsorted, hmem⟩ := ih (idx+1) l hs
      refine ⟨hsorted, fun i => ?_⟩
      rw [hmem i]
      constructor
      · rintro ⟨h1, h2, h3⟩
        exact ⟨by omega, by omega, h3⟩
      · rintro ⟨h1, h2, h3⟩
        have hne : i ≠ idx := fun hi => hnot (hi ▸ h3)
        exact ⟨by omega, by omega, h3⟩
    rw [scan] at h
    by_cases hu : (t.table idx).used ≤ 0
    · rw [if_pos hu] at h
      exact hskip (fun hh => absurd hh.1 (not_lt.mpr hu)) h
    · rw [if_neg hu] at h
      cases hp : p (t.table idx).entry with
      | none =>
        rw [hp] at h
        exact absurd h (by simp)
      | some hit =>
        rw [hp] at h
        cases hit with
        | false => exact hskip (fun hh => absurd (hh.2.symm.trans hp) (by simp)) h
        | true =>
          obtain ⟨l', hl', rfl⟩ := Option.map_eq_some_iff.mp h
          obtain ⟨hsorted, hmem⟩ := ih (idx+1) l' hl'
          have hhit : Hits p t idx := ⟨not_le.mp hu, hp⟩
          refine ⟨List.pairwise_cons.mpr ⟨fun i hi => ((hmem i).mp hi).1, hsorted⟩, fun i => ?_⟩
          rw [List.mem_cons, hmem i]
          constructor
          · rintro (rfl | ⟨h1, h2, h3⟩)
            · exact ⟨le_rfl, by omega, hhit⟩
            · exact ⟨by omega, by omega, h3⟩
          · rintro ⟨h1, h2, h3⟩
            by_cases hi : i = idx
            · exact .inl hi
            · exact .inr ⟨by omega, by omega, h3⟩

theorem scan_isSome (left idx : ℕ) :
    (scan p t left idx).isSome ↔ ∀ i, idx ≤ i → i < idx+left → ¬ Faults p t i := by
  induction left generalizing idx with
  | zero => exact iff_of_true rfl fun i h1 h2 => by omega
  | succ left ih =>
    have hstep : ¬ Faults p t idx → ((scan p t left (idx+1)).isSome ↔
        ∀ i, idx ≤ i → i < idx+(left+1) → ¬ Faults p t i) := by
      intro hidx
      rw [ih (idx+1)]
      constructor
      · intro h i h1 h2
        by_cases hi : i = idx
        · exact hi ▸ hidx
        · exact h i (by omega) (by omega)
      · intro h i h1 h2
        exact h i (by omega) (by omega)
    rw [scan]
    by_cases hu : (t.table idx).used ≤ 0
    · rw [if_pos hu]
      exact hstep fun hf => absurd hf.1 (not_lt.mpr hu)
    · rw [if_neg hu]
      cases hp : p (t.table idx).entry with
      | none => exact iff_of_false (by simp) fun h => h idx le_rfl (by omega) ⟨not_le.mp hu, hp⟩
      | some hit =>
        have hidx : ¬ Faults p t idx := fun hf => absurd (hf.2.symm.trans hp) (by simp)
        cases hit with
        | false => exact hstep hidx
        | true =>
          dsimp only
          rw [Option.isSome_map]
          exact hstep hidx

/-- The indices found are those of the hits in front of the last slot. -/
theorem collect_some (l : List ℕ)
    (h : collect (fun i => nextSlot p t (t.size-(i+1)) (i+1)) (t.size+1) 0 = some l) :
    l.Nodup ∧ ∀ i, i ∈ l ↔ 1 ≤ i ∧ i < t.size ∧ Hits p t i := by
  rw [collect_scan p t _ _ (by omega)] at h
  obtain ⟨hsorted, hmem⟩ := scan_some p t _ _ l h
  refine ⟨hsorted.imp fun hlt => Nat.ne_of_lt hlt, fun i => ?_⟩
  rw [hmem i]
  constructor
  · rintro ⟨h1, h2, h3⟩
    exact ⟨by omega, by omega, h3⟩
  · rintro ⟨h1, h2, h3⟩
    exact ⟨by omega, by omega, h3⟩

theorem collect_isSome :
    (collect (fun i => nextSlot p t (t.size-(i+1)) (i+1)) (t.size+1) 0).isSome ↔
      ∀ i, 1 ≤ i → i < t.size → ¬ Faults p t i := by
  rw [collect_scan p t _ _ (by omega), scan_isSome]
  constructor
  · intro h i h1 h2
    exact h i (by omega) (by omega)
  · intro h i h1 h2
    exact h i (by omega) (by omega)

/-- A list of the hits in all slots, each once. -/
def Lists (l : List ℕ) : Prop := l.Nodup ∧ ∀ i, i ∈ l ↔ 1 ≤ i ∧ i ≤ t.size ∧ Hits p t i

/-- No slot in front of the last one has a null pointer, and the last one is not a hit. -/
structure Searchable : Prop where
  readable : ∀ i, 1 ≤ i → i < t.size → ¬ Faults p t i
  last : 1 ≤ t.size → ¬ Hits p t t.size

theorem collect_lists_iff :
    (∃ l, collect (fun i => nextSlot p t (t.size-(i+1)) (i+1)) (t.size+1) 0 = some l ∧
      Lists p t l) ↔ Searchable p t := by
  constructor
  · rintro ⟨l, hl, -, hall⟩
    refine ⟨(collect_isSome p t).mp (by rw [hl]; rfl), fun hpos hlast => ?_⟩
    have hin := (hall t.size).mpr ⟨hpos, le_rfl, hlast⟩
    have hlt := ((collect_some p t l hl).2 t.size).mp hin
    omega
  · intro hs
    obtain ⟨l, hl⟩ := Option.isSome_iff_exists.mp ((collect_isSome p t).mpr hs.readable)
    obtain ⟨hnodup, hmem⟩ := collect_some p t l hl
    refine ⟨l, hl, hnodup, fun i => ?_⟩
    rw [hmem i]
    constructor
    · rintro ⟨h1, h2, h3⟩
      exact ⟨h1, by omega, h3⟩
    · rintro ⟨h1, h2, h3⟩
      have hne : i ≠ t.size := by
        rintro rfl
        exact hs.last h1 h3
      exact ⟨h1, by omega, h3⟩

end Scan

/-! ## The commands -/

section Complete
variable (var : CStr) (maxv : ℤ) (t : HTab)

theorem completeLoop_found (turns last found : ℕ) (bufsz : ℤ) (i : ℕ)
    (h : hmatchR var t last = some (i+1)) :
    completeLoop var maxv t (turns+1) last found bufsz =
      if maxv-2 ≤ found ∨ bufsz < (keyAt t (i+1)).length+1 then some ([], i+1)
      else (completeLoop var maxv t turns (i+1) (found+1)
        (bufsz-((keyAt t (i+1)).length+1))).map fun r => (keyAt t (i+1)::r.1, r.2) := by
  rw [completeLoop, h]
  rfl

/-- The names are those of the hits in their order, up to where the loop stops. -/
theorem completeLoop_collect (turns last found : ℕ) (bufsz : ℤ) (l : List ℕ)
    (h : collect (hmatchR var t) turns last = some l) :
    ∃ names idx, completeLoop var maxv t turns last found bufsz = some (names, idx) ∧
      (idx = 0 → names = l.map (keyAt t)) := by
  induction turns generalizing last found bufsz l with
  | zero => exact absurd h (by simp [collect])
  | succ turns ih =>
    rw [collect] at h
    cases hn : hmatchR var t last with
    | none =>
      rw [hn] at h
      exact absurd h (by simp)
    | some i =>
      rw [hn] at h
      cases i with
      | zero =>
        cases h
        exact ⟨[], 0, by rw [completeLoop, hn]; rfl, fun _ => rfl⟩
      | succ i =>
        obtain ⟨l', hl', rfl⟩ := Option.map_eq_some_iff.mp h
        rw [completeLoop_found var maxv t turns last found bufsz i hn]
        by_cases hstop : maxv-2 ≤ found ∨ bufsz < (keyAt t (i+1)).length+1
        · rw [if_pos hstop]
          exact ⟨[], i+1, rfl, fun h0 => absurd h0 (Nat.succ_ne_zero i)⟩
        · rw [if_neg hstop]
          obtain ⟨names, idx, hloop, hnames⟩ :=
            ih (i+1) (found+1) (bufsz-((keyAt t (i+1)).length+1)) l' hl'
          rw [hloop]
          exact ⟨keyAt t (i+1)::names, idx, rfl, fun h0 => by rw [hnames h0, List.map_cons]⟩

theorem qsortNames_perm (l : List CStr) : (qsortNames l).Perm l := by
  have h := ShellSort.sort_perm (fun a b => decide (EnvText.strcmp a b ≤ 0)) l.length
    (fun i => l.getD i [])
  rwa [ShellSort.front_getD] at h

end Complete

section Grep
variable (t : HTab)

theorem grepHits_spec (l : List ℕ) (g : Grep) :
    (∀ i, (l.foldl grepHit g).matched i = true ↔ g.matched i = true ∨ i ∈ l) ∧
    (∀ i, i ∈ (l.foldl grepHit g).printed ↔ i ∈ g.printed ∨ i ∈ l ∧ g.matched i = false) := by
  induction l generalizing g with
  | nil => simp
  | cons a l ih =>
    obtain ⟨hm, hp⟩ := ih (grepHit g a)
    constructor
    · intro i
      rw [List.foldl_cons, hm i, List.mem_cons]
      simp only [grepHit, Bool.or_eq_true, decide_eq_true_eq]
      tauto
    · intro i
      rw [List.foldl_cons, hp i, List.mem_cons]
      simp only [grepHit]
      by_cases ha : g.matched a = true
      · rw [if_pos ha]
        by_cases hi : i = a
        · subst hi
          simp [ha]
        · simp [hi]
      · rw [if_neg ha]
        by_cases hi : i = a
        · subst hi
          simp [ha]
        · simp [hi]

/-- The searches for the arguments. -/
def Searches (args : List CStr) : Prop :=
  ∀ s ∈ args, ∀ i, 1 ≤ i → i < t.size → ¬ Faults (entryContains s) t i

/-- A slot is printed when it is found for an argument and not marked at first. -/
theorem grepArgs_spec (args : List CStr) (g : Grep) :
    ((args.foldlM (grepArg t) g).isSome ↔ Searches t args) ∧
    ∀ g', args.foldlM (grepArg t) g = some g' → ∀ i, i ∈ g'.printed ↔
      i ∈ g.printed ∨ g.matched i = false ∧
        ∃ s ∈ args, 1 ≤ i ∧ i < t.size ∧ Hits (entryContains s) t i := by
  induction args generalizing g with
  | nil =>
    refine ⟨iff_of_true rfl fun s hs => absurd hs List.not_mem_nil, fun g' hg i => ?_⟩
    cases hg
    simp
  | cons s args ih =>
    rw [List.foldlM_cons]
    have hsome := collect_isSome (entryContains s) t
    cases hc : collect (hstrstrR s t) (t.size+1) 0 with
    | none =>
      have hnone : grepArg t g s = none := by rw [grepArg, hc]; rfl
      have hfault : ¬ ∀ i, 1 ≤ i → i < t.size → ¬ Faults (entryContains s) t i := by
        intro hall
        have := hsome.mpr hall
        change (collect (hstrstrR s t) (t.size+1) 0).isSome = true at this
        rw [hc] at this
        exact absurd this (by simp)
      rw [hnone]
      exact ⟨iff_of_false (by simp) fun h => hfault (h s List.mem_cons_self), fun g' hg => absurd hg (by simp)⟩
    | some l =>
      have hg : grepArg t g s = some (l.foldl grepHit g) := by rw [grepArg, hc]; rfl
      have hread : ∀ i, 1 ≤ i → i < t.size → ¬ Faults (entryContains s) t i := by
        apply hsome.mp
        change (collect (hstrstrR s t) (t.size+1) 0).isSome = true
        rw [hc]
        rfl
      have hmem := (collect_some (entryContains s) t l hc).2
      obtain ⟨hm, hp⟩ := grepHits_spec l g
      obtain ⟨hdef, hout⟩ := ih (l.foldl grepHit g)
      rw [hg]
      change ((args.foldlM (grepArg t) (l.foldl grepHit g)).isSome ↔ _) ∧ ∀ g', _ → _
      constructor
      · rw [hdef]
        constructor
        · intro h s' hs'
          rcases List.mem_cons.mp hs' with rfl | hs'
          · exact hread
          · exact h s' hs'
        · intro h s' hs'
          exact h s' (List.mem_cons_of_mem _ hs')
      · intro g' hg' i
        have hunmarked : (l.foldl grepHit g).matched i = false ↔ g.matched i = false ∧ i ∉ l := by
          rw [← Bool.not_eq_true, hm i, not_or, Bool.not_eq_true]
        rw [hout g' hg' i, hp i, hunmarked, List.exists_mem_cons_iff, ← hmem i]
        tauto

end Grep

/-! ## What is found -/

/-- All matching entries are found by the two searches, by `env_complete` with room for them,
and by `env grep`. -/
structure AllFound (t : HTab) (s : CStr) (args : List CStr) (zero : CStr) (stale : ℕ → Bool) :
    Prop where
  keys : ∃ l, collect (hmatchR s t) (t.size+1) 0 = some l ∧ Lists (keyStarts s) t l
  entries : ∃ l, collect (hstrstrR s t) (t.size+1) 0 = some l ∧ Lists (entryContains s) t l
  complete : ∃ l, Lists (keyStarts s) t l ∧ ∀ maxv bufsz, ∃ names more,
    envComplete s maxv bufsz t = some (names, more) ∧
      (more = false → names.Perm (l.map (keyAt t)))
  grep : ∃ g, doEnvGrep args zero stale t = some g ∧
    ∀ a ∈ args, ∀ i, 1 ≤ i → i ≤ t.size → Hits (entryContains a) t i → i ∈ g.printed

/-- No entry that the searches come to has a null pointer, the entry of the last slot does not
match, and no entry that matches an argument of `env grep` is marked in the stale byte. -/
structure Findable (t : HTab) (s : CStr) (args : List CStr) (zero : CStr) (stale : ℕ → Bool) :
    Prop where
  keys : Searchable (keyStarts s) t
  entries : Searchable (entryContains s) t
  zero : ∀ i, 1 ≤ i → i < t.size → ¬ Faults (entryContains zero) t i
  args : ∀ a ∈ args, Searchable (entryContains a) t ∧ ∀ i, 1 ≤ i → i < t.size →
    Hits (entryContains a) t i → 8*(t.size/8) ≤ i → stale i = false

theorem search_complete_iff (t : HTab) (s : CStr) (args : List CStr) (zero : CStr)
    (stale : ℕ → Bool) : AllFound t s args zero stale ↔ Findable t s args zero stale := by
  obtain ⟨hdef, hout⟩ := grepArgs_spec t (args ++ [zero]) (grepInit t stale)
  constructor
  · intro hall
    obtain ⟨g, hg, hprinted⟩ := hall.grep
    have hsearch := hdef.mp (by
      change (doEnvGrep args zero stale t).isSome = true
      rw [hg]
      rfl)
    have hmem := hout g hg
    refine ⟨(collect_lists_iff _ t).mp hall.keys, (collect_lists_iff _ t).mp hall.entries,
      hsearch zero (by simp), fun a ha => ⟨⟨hsearch a (by simp [ha]), fun hpos hlast => ?_⟩, ?_⟩⟩
    · rcases (hmem t.size).mp (hprinted a ha t.size hpos le_rfl hlast) with h | ⟨-, b, -, -, hlt, -⟩
      · exact absurd h List.not_mem_nil
      · omega
    · intro i hpos hlt hhit hbyte
      rcases (hmem i).mp (hprinted a ha i hpos hlt.le hhit) with h | ⟨h, -⟩
      · exact absurd h List.not_mem_nil
      · simpa [grepInit, hbyte] using h
  · intro hf
    obtain ⟨l, hl, hlists⟩ := (collect_lists_iff _ t).mpr hf.keys
    refine ⟨⟨l, hl, hlists⟩, (collect_lists_iff _ t).mpr hf.entries, ⟨l, hlists, fun maxv bufsz => ?_⟩, ?_⟩
    · obtain ⟨names, idx, hloop, hnames⟩ := completeLoop_collect s maxv t _ _ 0 bufsz l hl
      refine ⟨qsortNames names, decide (idx ≠ 0), by rw [envComplete, hloop]; rfl, fun hmore => ?_⟩
      rw [← hnames (by simpa using hmore)]
      exact qsortNames_perm names
    · have hsearch : Searches t (args ++ [zero]) := by
        intro a ha
        rcases List.mem_append.mp ha with ha | ha
        · exact (hf.args a ha).1.readable
        · exact List.mem_singleton.mp ha ▸ hf.zero
      obtain ⟨g, hg⟩ := Option.isSome_iff_exists.mp (hdef.mpr hsearch)
      refine ⟨g, hg, fun a ha i hpos hle hhit => ?_⟩
      obtain ⟨hs, hstale⟩ := hf.args a ha
      have hne : i ≠ t.size := by
        rintro rfl
        exact hs.last hpos hhit
      refine (hout g hg i).mpr (.inr ⟨?_, a, by simp [ha], hpos, by omega, hhit⟩)
      by_cases hbyte : 8*(t.size/8) ≤ i
      · simp [grepInit, hstale i hpos (by omega) hhit hbyte]
      · simp [grepInit, hbyte]

/-- Four names with one home in a table of five slots. -/
def fillOps : List Op :=
  [.enter [97] [49] 0, .enter [102] [49] 0, .enter [107] [49] 0, .enter [112] [49] 0]

/-- The fourth of them stands in the last slot. -/
theorem last_slot_missed : ¬ ∀ (h : Hooks) (ops : List Op) (n : ℕ) (t t' : HTab) (as : List Answer),
    hcreateR n = some t → run h ops t = some (as, t') → ∀ s args zero stale,
    AllFound t' s args zero stale := by
  intro hall
  have hrun : ((hcreateR 5).bind (run permissive fillOps)).map (fun r =>
      (collect (hmatchR [112] r.2) (r.2.size+1) 0, r.2.size, (r.2.table 5).used,
        keyStarts [112] (r.2.table 5).entry)) = some (some [], 5, 3, some true) := by decide +kernel
  obtain ⟨r, hr, hval⟩ := Option.map_eq_some_iff.mp hrun
  obtain ⟨t, ht, hops⟩ := Option.bind_eq_some_iff.mp hr
  obtain ⟨l, hl, -, hmem⟩ := (hall permissive fillOps 5 t r.2 r.1 ht hops [112] [] [] (fun _ => false)).keys
  obtain ⟨hcol, hsize, hused, hkey⟩ : collect (hmatchR [112] r.2) (r.2.size+1) 0 = some [] ∧
      r.2.size = 5 ∧ (r.2.table 5).used = 3 ∧ keyStarts [112] (r.2.table 5).entry = some true := by
    simpa using hval
  rw [hcol] at hl
  cases hl
  exact absurd ((hmem 5).mpr ⟨by decide, hsize.ge, ⟨by omega, hkey⟩⟩) List.not_mem_nil

end UBoot.HashTable
