import Mathlib.Tactic

/-!
# Logical memory blocks: `lib/lmb.c`

Addresses and sizes are 32-bit words. The entries behind the count stay in the
table and are read when the count is 0. `none` is a write behind the table or
a search without an end.
-/

set_option autoImplicit false

namespace UBoot.LogicalBlocks

def word (x : ℕ) : ℕ := x % 4294967296

/-- The difference of two words. -/
def minus (x y : ℕ) : ℕ := word (4294967296+x-y)

/-- `struct lmb_property` -/
structure Range where
  base : ℕ
  size : ℕ
  deriving DecidableEq, Repr

/-- `struct lmb_region` without its size, which is not read. -/
structure Table where
  cnt : ℕ
  region : ℕ → Range

structure Lmb where
  memory : Table
  reserved : Table

def maxLmbRegions : ℕ := 8

def addrsOverlap (base1 size1 base2 size2 : ℕ) : Prop :=
  base1 < word (base2+size2) ∧ base2 < word (base1+size1)

instance (base1 size1 base2 size2 : ℕ) : Decidable (addrsOverlap base1 size1 base2 size2) :=
  inferInstanceAs (Decidable (_ ∧ _))

def addrsAdjacent (base1 size1 base2 size2 : ℕ) : ℤ :=
  if base2 = word (base1+size1) then 1
  else if base1 = word (base2+size2) then -1
  else 0

def regionsAdjacent (region : ℕ → Range) (r1 r2 : ℕ) : ℤ :=
  addrsAdjacent (region r1).base (region r1).size (region r2).base (region r2).size

/-! ## Adding a region -/

/-- The loop of `lmb_remove_region`, with the rounds it has left. -/
def shiftDown (region : ℕ → Range) (i : ℕ) : ℕ → ℕ → Range
  | 0 => region
  | n+1 => shiftDown (Function.update region i (region (i+1))) (i+1) n

/-- With no region the count wraps, and the loop runs over the memory behind the table. -/
def removeRegion (t : Table) (r : ℕ) : Option Table :=
  if t.cnt = 0 then none
  else some ⟨t.cnt-1, shiftDown t.region r (t.cnt-1-r)⟩

def Table.set (t : Table) (i : ℕ) (r : Range) : Table :=
  { t with region := Function.update t.region i r }

def coalesceRegions (t : Table) (r1 r2 : ℕ) : Option Table :=
  removeRegion (t.set r1 ⟨(t.region r1).base, word ((t.region r1).size+(t.region r2).size)⟩) r2

def tableInit (t : Table) : Table := ⟨1, Function.update t.region 0 ⟨0, 0⟩⟩

def lmbInit (l : Lmb) : Lmb := ⟨tableInit l.memory, tableInit l.reserved⟩

/-- How the first loop of `lmb_add_region` ends. -/
inductive Scan where
  | present
  | grown (i : ℕ) (r : Range)
  | fresh
  deriving DecidableEq, Repr

/-- The loop from index `i` on, with the entries it has left. -/
@[grind]
def scan (region : ℕ → Range) (base size i : ℕ) : ℕ → Scan
  | 0 => .fresh
  | n+1 =>
    let r := region i
    if r.base = base ∧ r.size = size then .present
    else
      let adjacent := addrsAdjacent base size r.base r.size
      if 0 < adjacent then .grown i ⟨minus r.base size, word (r.size+size)⟩
      else if adjacent < 0 then .grown i ⟨r.base, word (r.size+size)⟩
      else scan region base size (i+1) n

/-- The second loop, from the entry before index `i` down. -/
@[grind]
def insertDown (region : ℕ → Range) (base size : ℕ) : ℕ → ℕ → Range
  | 0 => region
  | i+1 =>
    if base < (region i).base then
      insertDown (Function.update region (i+1) (region i)) base size i
    else Function.update region (i+1) ⟨base, size⟩

def insertRegion (t : Table) (base size : ℕ) : Table :=
  let region := insertDown t.region base size t.cnt
  ⟨t.cnt+1, if base < (region 0).base then Function.update region 0 ⟨base, size⟩ else region⟩

/-- `lmb_add_region`: the result and the table. -/
def addRegion (t : Table) (base size : ℕ) : Option (ℤ × Table) :=
  if t.cnt = 1 ∧ (t.region 0).size = 0 then
    some (0, t.set 0 ⟨base, size⟩)
  else
    match scan t.region base size 0 t.cnt with
    | .present => some (0, t)
    | .grown i r =>
      if i < t.cnt-1 ∧ regionsAdjacent (t.set i r).region i (i+1) ≠ 0 then
        (coalesceRegions (t.set i r) i (i+1)).map fun t' => (2, t')
      else some (1, t.set i r)
    | .fresh =>
      -- the bound `cnt-1` wraps in an empty table
      if t.cnt = 0 ∧ regionsAdjacent t.region 0 1 ≠ 0 then
        (coalesceRegions t 0 1).map fun t' => (1, t')
      else if maxLmbRegions ≤ t.cnt then some (-1, t)
      else some (0, insertRegion t base size)

def reserve (l : Lmb) (base size : ℕ) : Option (ℤ × Lmb) :=
  (addRegion l.reserved base size).map fun (r, t) => (r, { l with reserved := t })

def add (l : Lmb) (base size : ℕ) : Option (ℤ × Lmb) :=
  (addRegion l.memory base size).map fun (r, t) => (r, { l with memory := t })

/-! ## Freeing -/

/-- The region that holds a range, from index `i` on. -/
def findHolder (region : ℕ → Range) (base stop i : ℕ) : ℕ → Option ℕ
  | 0 => none
  | n+1 =>
    if (region i).base ≤ base ∧ stop ≤ word ((region i).base+(region i).size) then some i
    else findHolder region base stop (i+1) n

/-- `lmb_free` on the reserved table. -/
def freeRegion (t : Table) (base size : ℕ) : Option (ℤ × Table) :=
  let stop := word (base+size)
  match findHolder t.region base stop 0 t.cnt with
  | none => some (-1, t)
  | some i =>
    let r := t.region i
    let rgnend := word (r.base+r.size)
    if r.base = base ∧ rgnend = stop then (removeRegion t i).map fun t' => (0, t')
    else if r.base = base then some (0, t.set i ⟨stop, minus r.size size⟩)
    else if rgnend = stop then some (0, t.set i ⟨r.base, minus r.size size⟩)
    else addRegion (t.set i ⟨r.base, minus base r.base⟩) stop (minus rgnend stop)

def free (l : Lmb) (base size : ℕ) : Option (ℤ × Lmb) :=
  (freeRegion l.reserved base size).map fun (r, t) => (r, { l with reserved := t })

/-! ## Allocating -/

@[grind]
def overlapsRegion (region : ℕ → Range) (base size i : ℕ) : ℕ → Option ℕ
  | 0 => none
  | n+1 =>
    if addrsOverlap base size (region i).base (region i).size then some i
    else overlapsRegion region base size (i+1) n

def alignDown (addr size : ℕ) : ℕ := addr &&& (4294967295-minus size 1)

def alignUp (addr size : ℕ) : ℕ := word (addr+minus size 1) &&& (4294967295-minus size 1)

/-- The inner loop: a place at or below `base` that is not reserved. The fuel is above `base`. -/
@[grind]
def searchDown (t : Table) (lmbbase size align : ℕ) : ℕ → ℕ → Option (Option ℕ)
  | 0, _ => none
  | fuel+1, base =>
    if base = 0 ∨ base < lmbbase then some none
    else
      match overlapsRegion t.region base size 0 t.cnt with
      | none => some (some base)
      | some j =>
        let resBase := (t.region j).base
        if resBase < size then some none
        else searchDown t lmbbase size align fuel (alignDown (minus resBase size) align)

/-- The first place to be tried in a memory region. -/
def topBase (r : Range) (size align maxAddr : ℕ) : Option ℕ :=
  if r.size < size then none
  else if maxAddr = 0 then some (alignDown (minus (word (r.base+r.size)) size) align)
  else if r.base < maxAddr then
    some (alignDown (minus (min (word (r.base+r.size)) maxAddr) size) align)
  else none

/-- The outer loop, over the first memory regions, the last one first. -/
@[grind]
def searchRegions (l : Lmb) (size align maxAddr : ℕ) : ℕ → Option (Option ℕ)
  | 0 => some none
  | i+1 =>
    match topBase (l.memory.region i) size align maxAddr with
    | none => searchRegions l size align maxAddr i
    | some base =>
      match searchDown l.reserved (l.memory.region i).base size align (base+1) base with
      | none => none
      | some none => searchRegions l size align maxAddr i
      | some (some base) => some (some base)

/-- `__lmb_alloc_base`: 0 or the base of the new region. -/
def allocBase (l : Lmb) (size align maxAddr : ℕ) : Option (ℕ × Lmb) :=
  match searchRegions l size align maxAddr l.memory.cnt with
  | none => none
  | some none => some (0, l)
  | some (some base) =>
    match addRegion l.reserved base (alignUp size align) with
    | none => none
    | some (r, t) => some (if r < 0 then 0 else base, { l with reserved := t })

/-- `lmb_is_reserved` -/
def isReserved (l : Lmb) (addr : ℕ) : Bool :=
  (List.range l.reserved.cnt).any fun i =>
    let r := l.reserved.region i
    decide (r.base ≤ addr ∧ addr ≤ minus (word (r.base+r.size)) 1)

end UBoot.LogicalBlocks
