import UBoot.Fdt

/-!
# Regions to be hashed: `fdt_find_regions` of `lib/libfdt/fdt_wip.c`

The tree is walked from its start with the path of the node in a buffer. A
node whose path is listed is taken with its properties, and its subnodes with
their tags only; properties with an excluded name are left out. `none` is an
access outside the stack or through a null pointer, or a walk without an end.
-/

set_option autoImplicit false

namespace UBoot.Fdt

structure Region where
  offset : ℕ
  size : ℕ
  deriving DecidableEq, Repr

def fdtMaxDepth : ℕ := 32

/-- The local variables of the function. -/
structure Walk where
  path : Name
  /-- `want` of the enclosing nodes, the innermost first. -/
  stack : List ℕ
  want : ℕ
  start : Option ℕ
  count : ℕ
  region : ℕ → Region

def Walk.moveTo (w : Walk) (path : Name) (stack : List ℕ) (want : ℕ) : Walk :=
  { w with path := path, stack := stack, want := want }

/-- What is looked for, and the room for it. -/
structure Search where
  inc : List Name
  excProp : List Name
  maxRegions : ℕ
  pathLen : ℕ

/-- The end of the loop body: a region is opened, continued or closed. -/
def mark (b : Blob) (q : Search) (w : Walk) (taken : Bool) (offset stopAt : ℕ) : Walk :=
  let base := offDtStruct b
  match taken, w.start with
  | true, none =>
    let last := w.region (w.count-1)
    if w.count ≠ 0 ∧ w.count ≤ q.maxRegions ∧ offset = minus (w32 (last.offset+last.size)) base then
      { w with count := w.count-1, start := some (minus last.offset base) }
    else { w with start := some offset }
  | false, some start =>
    { w with
      region := (if w.count < q.maxRegions then
        Function.update w.region w.count ⟨w32 (base+start), minus stopAt start⟩ else w.region)
      count := w.count+1
      start := none }
  | _, _ => w

/-- The path without its last component. -/
def parentPath (path : Name) : Name := ((path.reverse.dropWhile (· ≠ 47)).drop 1).reverse

/-- The path of a subnode; the root is `/`. -/
def childPath (path name : Name) : Name := (if path.length ≠ 1 then path ++ [47] else path) ++ name

/-- One round of the loop; the error is the result of the function. -/
@[grind]
def visit (b : Blob) (q : Search) (w : Walk) (offset : ℕ) : Option (Except ℕ Walk) :=
  let t := nextTag b offset
  match t.tag with
  | .prop =>
    if isNeg (checkPropOffset b offset) then none
    else
      let str := fdtString b (propNameoff b offset)
      some (.ok (mark b q w (2 ≤ w.want && !q.excProp.any (strEq b str)) offset offset))
  | .nop => some (.ok (mark b q w (2 ≤ w.want) offset offset))
  | .beginNode =>
    if w.stack.length = fdtMaxDepth then some (.error errBadstructure)
    else
      match getName b offset with
      | none => none
      | some p =>
        let name := cstrAt b p
        if q.pathLen ≤ w.path.length+2+name.length then some (.error errNospace)
        else
          let path := childPath w.path name
          let want := if path ∈ q.inc then 2 else w.want-1
          let stopAt := if w.want = 1 ∨ path ∉ q.inc ∧ w.want = 0 then offset else t.next
          some (.ok (mark b q (w.moveTo path (w.want::w.stack) want) (want ≠ 0) offset stopAt))
  | .endNode =>
    match w.stack with
    | [] => none
    | outer::stack =>
      some (.ok (mark b q (w.moveTo (parentPath w.path) stack outer) (w.want ≠ 0) offset t.next))
  | .done => some (.ok (mark b q w true offset t.next))

@[grind]
def findLoop (b : Blob) (q : Search) : ℕ → ℕ → Walk → Option (Except ℕ (Walk × ℕ))
  | 0, _, _ => none
  | fuel+1, offset, w =>
    match visit b q w offset with
    | none => none
    | some (.error e) => some (.error e)
    | some (.ok w') =>
      if (nextTag b offset).tag = .done then some (.ok (w', (nextTag b offset).next))
      else findLoop b q fuel (nextTag b offset).next w'

def startWalk : Walk := ⟨[], [], 0, none, 0, fun _ => ⟨0, 0⟩⟩

/-- The region of the end tag; without the string table, which is not asked for. -/
def closeWalk (b : Blob) (q : Search) (w : Walk) (nextoffset : ℕ) : ℕ × (ℕ → Region) :=
  let start := w.start.getD 4294967295
  (w.count+1, if w.count < q.maxRegions then
    Function.update w.region w.count ⟨w32 (offDtStruct b+start), minus nextoffset start⟩
    else w.region)

/-- `fdt_find_regions` with `add_string_tab` 0: the count and the regions. -/
def findRegions (b : Blob) (q : Search) : Option (Except ℕ (ℕ × (ℕ → Region))) :=
  match findLoop b q walkFuel 0 startWalk with
  | none => none
  | some (.error e) => some (.error e)
  | some (.ok (w, nextoffset)) =>
    if nextoffset ≠ sizeDtStruct b then some (.error errBadlayout)
    else some (.ok (closeWalk b q w nextoffset))

end UBoot.Fdt
