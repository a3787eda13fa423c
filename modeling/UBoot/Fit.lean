import UBoot.FdtWalk

/-!
# Images and configurations of a FIT: `common/image.c`

The images are subnodes of `/images`, the configurations subnodes of
`/configurations`. A configuration names its images by their unit names.
-/

set_option autoImplicit false

namespace UBoot.Fit
open UBoot.Fdt

def text (s : String) : Name := s.toList.map fun c => UInt8.ofNat c.toNat

/-- The value of a property, if it is there. -/
def lookup (b : Blob) (noffset : ℕ) (name : Name) : Option (Option Value) :=
  (getprop b noffset name).map Except.toOption

/-- The name of a node as `fit_get_name` gives it, compared with `strncmp`. -/
def namedAs (b : Blob) (start : Name) (noffset : ℕ) : Option Bool :=
  (getName b noffset).map fun p => memory b p start.length = start

def fitImagesPath : List Name := [text "images"]
def fitConfsPath : List Name := [text "configurations"]

/-- `fit_image_get_node` and the end of `fit_conf_get_node`. -/
def unitNode (b : Blob) (path : List Name) (uname : Name) : Option ℕ := do
  let parent ← pathOffset b path 0
  if isNeg parent then return parent else subnodeOffset b parent uname

def fitImageGetNode (b : Blob) (imageUname : Name) : Option ℕ := unitNode b fitImagesPath imageUname

def fitConfGetNode (b : Blob) (confUname : Option Name) : Option ℕ :=
  match confUname with
  | some uname => unitNode b fitConfsPath uname
  | none => do
    let confs ← pathOffset b fitConfsPath 0
    if isNeg confs then return confs
    else
      match ← getprop b confs (text "default") with
      | .error e => return e
      | .ok v => subnodeOffset b confs (cstrAt b v.data)

/-- `__fit_conf_get_prop_node` -/
def fitConfGetPropNode (b : Blob) (noffset : ℕ) (propName : Name) : Option ℕ := do
  match ← getprop b noffset propName with
  | .error e => return e
  | .ok v => fitImageGetNode b (cstrAt b v.data)

def fitConfGetKernelNode (b : Blob) (noffset : ℕ) : Option ℕ :=
  fitConfGetPropNode b noffset (text "kernel")

def fitImageHashGetAlgo (b : Blob) (noffset : ℕ) : Option (Option Value) :=
  lookup b noffset (text "algo")

def fitImageHashGetValue (b : Blob) (noffset : ℕ) : Option (Option Value) :=
  lookup b noffset (text "value")

def fitImageGetData (b : Blob) (noffset : ℕ) : Option (Option Value) :=
  lookup b noffset (text "data")

/-! ## Nodes -/

theorem unitNode_node (b : Blob) (path : List Name) (uname : Name) (o : ℕ) (hroot : IsNode b 0)
    (h : unitNode b path uname = some o) (hneg : ¬isNeg o) : IsNode b o := by
  obtain ⟨parent, hp, h⟩ := Option.bind_eq_some_iff.mp h
  split_ifs at h with h1
  · cases h
    exact absurd h1 hneg
  · exact subnodeOffset_node b parent uname o (pathOffset_node b path 0 parent hroot hp h1) h hneg

theorem fitConfGetNode_node (b : Blob) (uname : Option Name) (o : ℕ) (hroot : IsNode b 0)
    (h : fitConfGetNode b uname = some o) (hneg : ¬isNeg o) : IsNode b o := by
  cases uname with
  | some uname => exact unitNode_node b fitConfsPath uname o hroot h hneg
  | none =>
    obtain ⟨confs, hp, h⟩ := Option.bind_eq_some_iff.mp h
    split_ifs at h with h1
    · cases h
      exact absurd h1 hneg
    obtain ⟨v, hv, h⟩ := Option.bind_eq_some_iff.mp h
    cases v with
    | error e =>
      cases h
      exact absurd (getprop_error b confs _ o hv) hneg
    | ok v =>
      exact subnodeOffset_node b confs _ o (pathOffset_node b fitConfsPath 0 confs hroot hp h1) h hneg

end UBoot.Fit
