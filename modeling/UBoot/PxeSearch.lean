import UBoot.Pxe
import UBoot.HexText
import Mathlib.Tactic.Push

/-!
# The search for a PXE configuration: `do_pxe_get` of `common/cmd_pxe.c`

A string is the list of its characters. A part of the search gives whether a
file was found and the paths that were asked for. `none` is a write outside of a
buffer or a read through a null pointer.
-/

set_option autoImplicit false

namespace UBoot.Pxe

/-- `MAX_TFTP_PATH_LEN` -/
def maxPath : ℕ := 127

/-- `PXELINUX_DIR` -/
def pxelinuxDir : Bytes := word ['p', 'x', 'e', 'l', 'i', 'n', 'u', 'x', '.', 'c', 'f', 'g', '/']

def slash : UInt8 := 47
def colon : UInt8 := 58
def dash : UInt8 := 45

structure Env where
  pxeuuid : Option Bytes
  ethact : Option Bytes
  ethaddr : Option Bytes
  eth1addr : Option Bytes
  eth2addr : Option Bytes
  eth3addr : Option Bytes
  bootfile : Option Bytes
  pxeFilesLoad : Option Bytes
  /-- What `strict_strtoul` makes of `pxefile_addr_r`. -/
  pxefileAddr : Option ℕ

abbrev Search := Option (Bool × List Bytes)

/-- `||`, and the next turn of a loop. -/
def Search.orElse (x y : Search) : Search :=
  x.bind fun r => if r.1 then some r else y.map fun s => (s.1, r.2++s.2)

section Code

variable (server : Bytes → Bool) (env : Env)

/-- `bootfile` up to its last slash. -/
def bootfileDir : Bytes :=
  match env.bootfile with
  | none => []
  | some bootfile => (bootfile.reverse.dropWhile (· ≠ slash)).reverse

/-- `get_bootfile_path` for a buffer of 128 bytes; `some none` is an error. -/
def getBootfilePath (filePath : Bytes) : Option (Option Bytes) :=
  if filePath.head? = some slash then some (some [])
  else if maxPath+1 < (bootfileDir env).length then some none
  -- the terminating zero is written behind the buffer
  else if (bootfileDir env).length = maxPath+1 then none
  else some (some (bootfileDir env))

/-- `get_relfile`. -/
def getRelfile (filePath : Bytes) : Search :=
  (getBootfilePath env filePath).map fun
    | none => (false, [])
    | some relfile =>
      if filePath.length+relfile.length > maxPath then (false, [])
      else (server (relfile++filePath), [relfile++filePath])

/-- `get_pxelinux_path`. -/
def getPxelinuxPath (file : Bytes) : Search :=
  if pxelinuxDir.length+file.length > maxPath then some (false, [])
  else getRelfile server env (pxelinuxDir++file)

/-- `pxe_uuid_path`. -/
def pxeUuidPath : Search :=
  match env.pxeuuid with
  | none => some (false, [])
  | some uuid => getPxelinuxPath server env uuid

def egiga (digit : Char) : Bytes := word ['e', 'g', 'i', 'g', 'a', digit]

/-- The address of the port, by its name. -/
def portAddr (ethact : Bytes) : Option Bytes :=
  if ethact = egiga '0' then env.ethaddr
  else if ethact = egiga '1' then env.eth1addr
  else if ethact = egiga '2' then env.eth2addr
  else if ethact = egiga '3' then env.eth3addr
  else none

/-- `format_mac_pxe` for a buffer of 21 bytes; `some none` is an error. -/
def formatMacPxe : Option (Option Bytes) :=
  env.ethact.map fun ethact =>
    match portAddr env ethact with
    | none => none
    | some ethaddr =>
      if 21 < ethaddr.length+4 then none
      else some (word ['0', '1', '-']++ethaddr.map fun c => if c = colon then dash else tolower c)

/-- `pxe_mac_path`. -/
def pxeMacPath : Search :=
  (formatMacPxe env).bind fun
    | none => some (false, [])
    | some mac => getPxelinuxPath server env mac

/-- The loop of `pxe_ipaddr_paths` with that many characters left. -/
@[grind]
def pxeIpaddrPaths (ipAddr : Bytes) : ℕ → Search
  | 0 => some (false, [])
  | n+1 => (getPxelinuxPath server env (ipAddr.take (n+1))).orElse (pxeIpaddrPaths ipAddr n)

/-- The loop of `pxe_env_files`: the search of `strstr`, and the name behind a colon. Without a
colon behind the name `filename` is indexed with a null pointer. -/
@[grind]
def envFiles : Bytes → Search
  | [] => some (false, [])
  | c::rest =>
    if c = colon then
      if colon ∈ rest then
        let filename := rest.takeWhile (· ≠ colon)
        if 20 ≤ filename.length then none
        else (getPxelinuxPath server env filename).orElse (envFiles rest)
      else none
    else envFiles rest

/-- `pxe_env_files`, with `file_enviroments` of 200 bytes. -/
def pxeEnvFiles : Search :=
  env.pxeFilesLoad.bind fun files => if 200 ≤ files.length then none else envFiles server env files

/-- `sprintf(ip_addr, "%08X", ...)` -/
def ipText (ip : ℕ) : Bytes := HexText.pairs HexText.upperA (HexText.be 4 ip)

def defaultName : Bytes := word ['d', 'e', 'f', 'a', 'u', 'l', 't']

/-- `do_pxe_get`. -/
def doPxeGet (ip : ℕ) : Search :=
  match env.pxefileAddr with
  | none => some (false, [])
  | some _ =>
    (pxeUuidPath server env).orElse ((pxeMacPath server env).orElse
      ((pxeIpaddrPaths server env (ipText ip) 8).orElse
        ((pxeEnvFiles server env).orElse (getPxelinuxPath server env defaultName))))

end Code

/-! ## What is asked for -/

section Spec

variable (server : Bytes → Bool) (env : Env)

/-- The names of a list: each one stands behind a colon. -/
@[grind]
def names : Bytes → List Bytes
  | [] => []
  | c::rest => if c = colon then rest.takeWhile (· ≠ colon)::names rest else names rest

/-- The name of the Ethernet address. -/
def macName : Option Bytes := (formatMacPxe env).join

/-- The prefixes of the address, the longest first. -/
def prefixes (text : Bytes) : ℕ → List Bytes
  | 0 => []
  | n+1 => text.take (n+1)::prefixes text n

/-- All names, in order. -/
def candidates (ip : ℕ) : List Bytes :=
  env.pxeuuid.toList++(macName env).toList++prefixes (ipText ip) 8++
    names (env.pxeFilesLoad.getD [])++[defaultName]

/-- The path of a name, where it is short enough. -/
def pathOf (name : Bytes) : Option Bytes :=
  if (bootfileDir env).length+pxelinuxDir.length+name.length ≤ maxPath then
    some (bootfileDir env++pxelinuxDir++name)
  else none

/-- A list up to the first one that the server has. -/
@[grind]
def upToFirst : List Bytes → List Bytes
  | [] => []
  | path::paths => if server path then [path] else path::upToFirst paths

/-- The paths are asked for in order up to the first one that is found, if there is one. -/
def sought (names : List Bytes) : Bool × List Bytes :=
  ((names.filterMap (pathOf env)).any server, upToFirst server (names.filterMap (pathOf env)))

def Right (ip : ℕ) : Prop := doPxeGet server env ip = some (sought server env (candidates env ip))

def Found (name : Bytes) : Prop := ∃ path ∈ pathOf env name, server path = true

/-- A name of the list that another one follows is found, and it and all in front of it have less
than 20 characters. -/
def FoundInside (files : Bytes) : Prop :=
  ∃ front name behind, names files = front++name::behind ∧ behind ≠ [] ∧ Found server env name ∧
    ∀ n ∈ front++[name], n.length < 20

/-- The list is asked for without a write outside. -/
def ListFits : Prop :=
  ∃ files ∈ env.pxeFilesLoad, files.length < 200 ∧ (colon ∉ files ∨ FoundInside server env files)

/-- Where the search goes right. -/
def Fits (ip : ℕ) : Prop :=
  (bootfileDir env).length ≠ maxPath+1 ∧ ((∃ n ∈ env.pxeuuid, Found server env n) ∨
    env.ethact.isSome ∧ ((∃ n ∈ macName env, Found server env n) ∨
      (∃ n ∈ prefixes (ipText ip) 8, Found server env n) ∨ ListFits server env))

end Spec

/-! ## Parts of the search -/

section Parts

variable {server : Bytes → Bool} {env : Env}

theorem upToFirst_append (l m : List Bytes) :
    upToFirst server (l++m) =
      if l.any server then upToFirst server l else upToFirst server l++upToFirst server m := by
  induction l with
  | nil => rfl
  | cons path l ih =>
    rw [List.cons_append, upToFirst, upToFirst, List.any_cons]
    cases hpath : server path with
    | true => rfl
    | false =>
      rw [Bool.false_or, if_neg Bool.false_ne_true, if_neg Bool.false_ne_true, ih]
      split <;> rfl

theorem found_iff (l : List Bytes) : (sought server env l).1 = true ↔ ∃ n ∈ l, Found server env n := by
  simp only [sought, List.any_eq_true, List.mem_filterMap, Found]
  constructor
  · rintro ⟨path, ⟨n, hn, hpath⟩, hserver⟩
    exact ⟨n, hn, path, hpath, hserver⟩
  · rintro ⟨n, hn, path, hpath, hserver⟩
    exact ⟨path, ⟨n, hn, hpath⟩, hserver⟩

theorem sought_append (l m : List Bytes) :
    sought server env (l++m) = if (sought server env l).1 = true then sought server env l
      else ((sought server env m).1, (sought server env l).2++(sought server env m).2) := by
  rw [sought, List.filterMap_append, List.any_append, upToFirst_append]
  by_cases hl : (l.filterMap (pathOf env)).any server = true
  · rw [if_pos hl, if_pos (show (sought server env l).1 = true from hl), hl, Bool.true_or, sought, hl]
  · rw [if_neg hl, if_neg (show ¬(sought server env l).1 = true from hl),
      Bool.eq_false_of_not_eq_true hl, Bool.false_or]
    rfl

theorem orElse_sought (l m : List Bytes) :
    Search.orElse (some (sought server env l)) (some (sought server env m)) =
      some (sought server env (l++m)) := by
  rw [Search.orElse, Option.bind_some, Option.map_some, sought_append, apply_ite some]

theorem orElse_found {l : List Bytes} (h : ∃ n ∈ l, Found server env n) (y : Search)
    (m : List Bytes) :
    Search.orElse (some (sought server env l)) y = some (sought server env (l++m)) := by
  rw [← orElse_sought]
  have hfound := (found_iff l).2 h
  rw [Search.orElse, Search.orElse, Option.bind_some, Option.bind_some, if_pos hfound, if_pos hfound]

theorem orElse_none {l : List Bytes} (h : ¬∃ n ∈ l, Found server env n) :
    Search.orElse (some (sought server env l)) none = none := by
  rw [Search.orElse, Option.bind_some, if_neg fun hfound => h ((found_iff l).1 hfound)]
  rfl

theorem dir_head (file : Bytes) : (pxelinuxDir++file).head? ≠ some slash := by
  show some _ ≠ _
  decide

theorem sought_none {file : Bytes} (h : pathOf env file = none) :
    sought server env [file] = (false, []) := by
  rw [sought, List.filterMap_cons_none h]
  rfl

theorem sought_some {file path : Bytes} (h : pathOf env file = some path) :
    sought server env [file] = (server path, [path]) := by
  rw [sought, List.filterMap_cons_some h, List.filterMap_nil, List.any_cons, List.any_nil,
    Bool.or_false, upToFirst]
  split <;> rfl

/-- One name. -/
theorem getPxelinuxPath_eq (hdir : (bootfileDir env).length ≠ maxPath+1) (file : Bytes) :
    getPxelinuxPath server env file = some (sought server env [file]) := by
  have hlength : (pxelinuxDir++file).length = pxelinuxDir.length+file.length := List.length_append
  by_cases hfits : (bootfileDir env).length+pxelinuxDir.length+file.length ≤ maxPath
  · rw [sought_some (if_pos hfits), getPxelinuxPath, if_neg (by omega), getRelfile, getBootfilePath,
      if_neg (dir_head file), if_neg (by omega), if_neg hdir, Option.map_some]
    dsimp only
    rw [if_neg (by omega), List.append_assoc]
  · rw [sought_none (if_neg hfits), getPxelinuxPath]
    split_ifs with hfile
    · rfl
    · rw [getRelfile, getBootfilePath, if_neg (dir_head file)]
      split_ifs with hlong
      · rfl
      · rw [Option.map_some]
        dsimp only
        rw [if_pos (by omega)]

/-- A directory of 128 characters fills the buffer. -/
theorem getPxelinuxPath_none (hdir : (bootfileDir env).length = maxPath+1) {file : Bytes}
    (hfile : pxelinuxDir.length+file.length ≤ maxPath) : getPxelinuxPath server env file = none := by
  rw [getPxelinuxPath, if_neg (not_lt.2 hfile), getRelfile, getBootfilePath, if_neg (dir_head file),
    if_neg (by omega), if_pos hdir]
  rfl

theorem pxeUuidPath_eq (hdir : (bootfileDir env).length ≠ maxPath+1) :
    pxeUuidPath server env = some (sought server env env.pxeuuid.toList) := by
  unfold pxeUuidPath
  cases env.pxeuuid with
  | none => rfl
  | some uuid => exact getPxelinuxPath_eq hdir uuid

theorem pxeMacPath_eq (hdir : (bootfileDir env).length ≠ maxPath+1) (hact : env.ethact.isSome) :
    pxeMacPath server env = some (sought server env (macName env).toList) := by
  obtain ⟨ethact, hact⟩ := Option.isSome_iff_exists.1 hact
  unfold pxeMacPath macName formatMacPxe
  rw [hact, Option.map_some, Option.bind_some, Option.join_some]
  split
  · next heq =>
    rw [heq]
    rfl
  · next mac heq =>
    rw [heq]
    exact getPxelinuxPath_eq hdir mac

theorem pxeIpaddrPaths_eq (hdir : (bootfileDir env).length ≠ maxPath+1) (text : Bytes) (n : ℕ) :
    pxeIpaddrPaths server env text n = some (sought server env (prefixes text n)) := by
  induction n with
  | zero => rfl
  | succ n ih =>
    rw [pxeIpaddrPaths, getPxelinuxPath_eq hdir, ih, orElse_sought]
    rfl

/-! ## The list of names -/

theorem names_nil {files : Bytes} (h : colon ∉ files) : names files = [] := by
  induction files with
  | nil => rfl
  | cons c rest ih =>
    obtain ⟨hc, hrest⟩ := not_or.1 (List.mem_cons.not.1 h)
    rw [names, if_neg (Ne.symm hc)]
    exact ih hrest

theorem names_ne_nil {files : Bytes} (h : colon ∈ files) : names files ≠ [] := by
  induction files with
  | nil => cases h
  | cons c rest ih =>
    rw [names]
    split_ifs with hc
    · exact List.cons_ne_nil _ _
    · exact ih ((List.mem_cons.1 h).resolve_left (Ne.symm hc))

/-- The first name of a list is found, or one behind it is. -/
theorem foundInside_cons {rest : Bytes} (hrest : colon ∈ rest) :
    FoundInside server env (colon::rest) ↔ (rest.takeWhile (· ≠ colon)).length < 20 ∧
      (Found server env (rest.takeWhile (· ≠ colon)) ∨ FoundInside server env rest) := by
  unfold FoundInside
  rw [names, if_pos rfl]
  constructor
  · rintro ⟨front, name, behind, heq, hbehind, hfound, hshort⟩
    cases front with
    | nil =>
      obtain ⟨rfl, rfl⟩ := List.cons.inj heq
      exact ⟨hshort _ (List.mem_singleton.2 rfl), .inl hfound⟩
    | cons first front =>
      obtain ⟨rfl, htail⟩ := List.cons.inj heq
      obtain ⟨hfirst, hshort⟩ := List.forall_mem_cons.1 hshort
      exact ⟨hfirst, .inr ⟨front, name, behind, htail, hbehind, hfound, hshort⟩⟩
  · rintro ⟨hfirst, hfound | ⟨front, name, behind, heq, hbehind, hfound, hshort⟩⟩
    · exact ⟨[], _, _, rfl, names_ne_nil hrest, hfound, List.forall_mem_singleton.2 hfirst⟩
    · refine ⟨rest.takeWhile (· ≠ colon)::front, name, behind, ?_, hbehind, hfound,
        List.forall_mem_cons.2 ⟨hfirst, hshort⟩⟩
      rw [heq, List.cons_append]

/-- The loop asks for the names just where there is no colon or the search ends inside the list. -/
theorem envFiles_eq (hdir : (bootfileDir env).length ≠ maxPath+1) (files : Bytes) :
    (colon ∉ files ∨ FoundInside server env files →
        envFiles server env files = some (sought server env (names files))) ∧
      (¬(colon ∉ files ∨ FoundInside server env files) → envFiles server env files = none) := by
  induction files with
  | nil => exact ⟨fun _ => rfl, fun h => absurd (.inl (List.not_mem_nil)) h⟩
  | cons c rest ih =>
    rw [envFiles, names]
    by_cases hc : c = colon
    swap
    · have hmem : colon ∈ c::rest ↔ colon ∈ rest := by
        rw [List.mem_cons, or_iff_right (Ne.symm hc)]
      have hinside : FoundInside server env (c::rest) ↔ FoundInside server env rest := by
        rw [FoundInside, FoundInside, names, if_neg hc]
      rw [if_neg hc, if_neg hc, hmem, hinside]
      exact ih
    subst hc
    rw [if_pos rfl, if_pos rfl, or_iff_right (not_not.2 List.mem_cons_self)]
    by_cases hrest : colon ∈ rest
    swap
    · rw [if_neg hrest]
      refine ⟨fun h => ?_, fun _ => rfl⟩
      obtain ⟨front, name, behind, heq, hbehind, -⟩ := h
      rw [names, if_pos rfl, names_nil hrest] at heq
      have hlength := congrArg List.length heq
      rw [List.length_singleton, List.length_append, List.length_cons] at hlength
      exact absurd (List.length_eq_zero_iff.1 (by omega)) hbehind
    rw [if_pos hrest, foundInside_cons hrest]
    rw [or_iff_right (not_not.2 hrest)] at ih
    dsimp only
    by_cases hlong : 20 ≤ (rest.takeWhile (· ≠ colon)).length
    · rw [if_pos hlong]
      exact ⟨fun h => absurd h.1 (not_lt.2 hlong), fun _ => rfl⟩
    rw [if_neg hlong, and_iff_right (not_le.1 hlong), getPxelinuxPath_eq hdir]
    by_cases hfound : Found server env (rest.takeWhile (· ≠ colon))
    · refine ⟨fun _ => ?_, fun h => absurd (.inl hfound) h⟩
      exact orElse_found ⟨_, List.mem_singleton.2 rfl, hfound⟩ _ _
    · rw [or_iff_right hfound]
      refine ⟨fun h => ?_, fun h => ?_⟩
      · rw [ih.1 h, orElse_sought]
        rfl
      · rw [ih.2 h]
        refine orElse_none ?_
        rintro ⟨n, hn, hf⟩
        exact hfound (List.mem_singleton.1 hn ▸ hf)

theorem pxeEnvFiles_eq (hdir : (bootfileDir env).length ≠ maxPath+1) :
    (ListFits server env →
        pxeEnvFiles server env = some (sought server env (names (env.pxeFilesLoad.getD [])))) ∧
      (¬ListFits server env → pxeEnvFiles server env = none) := by
  unfold pxeEnvFiles ListFits
  cases env.pxeFilesLoad with
  | none => exact ⟨(fun ⟨_, h, _⟩ => nomatch h), fun _ => rfl⟩
  | some files =>
    rw [Option.bind_some, Option.getD_some]
    by_cases hlong : 200 ≤ files.length
    · rw [if_pos hlong]
      refine ⟨fun ⟨_, h, hlt, _⟩ => ?_, fun _ => rfl⟩
      exact absurd hlong (not_le.2 (Option.some.inj h ▸ hlt))
    · rw [if_neg hlong]
      refine ⟨fun ⟨_, h, _, hinside⟩ => (envFiles_eq hdir files).1 (Option.some.inj h ▸ hinside),
        fun hnot => (envFiles_eq hdir files).2 fun h => hnot ⟨files, rfl, not_le.1 hlong, h⟩⟩

end Parts

/-! ## The whole search -/

section Whole

variable {server : Bytes → Bool} {env : Env}

theorem doPxeGet_some (haddr : env.pxefileAddr.isSome) (ip : ℕ) : doPxeGet server env ip =
    (pxeUuidPath server env).orElse ((pxeMacPath server env).orElse
      ((pxeIpaddrPaths server env (ipText ip) 8).orElse
        ((pxeEnvFiles server env).orElse (getPxelinuxPath server env defaultName)))) := by
  obtain ⟨addr, haddr⟩ := Option.isSome_iff_exists.1 haddr
  rw [doPxeGet, haddr]

/-- With a directory of 128 characters one name writes behind its buffer or is too long. -/
theorem getPxelinuxPath_overflow (hdir : (bootfileDir env).length = maxPath+1) (file : Bytes) :
    getPxelinuxPath server env file = none ∨
      getPxelinuxPath server env file = some (false, []) := by
  by_cases hfile : pxelinuxDir.length+file.length ≤ maxPath
  · exact .inl (getPxelinuxPath_none hdir hfile)
  · exact .inr (if_pos (not_le.1 hfile))

/-- The whole search writes behind the buffer then. -/
theorem doPxeGet_overflow (haddr : env.pxefileAddr.isSome)
    (hdir : (bootfileDir env).length = maxPath+1) (ip : ℕ) : doPxeGet server env ip = none := by
  rw [doPxeGet_some haddr]
  have hip : pxeIpaddrPaths server env (ipText ip) 8 = none := by
    rw [pxeIpaddrPaths, getPxelinuxPath_none hdir]
    · rfl
    · have hle := List.length_take_le 8 (ipText ip)
      exact (Nat.add_le_add_left hle _).trans (by decide)
  have huuid : pxeUuidPath server env = none ∨ pxeUuidPath server env = some (false, []) := by
    unfold pxeUuidPath
    cases env.pxeuuid with
    | none => exact .inr rfl
    | some uuid => exact getPxelinuxPath_overflow hdir uuid
  have hmac : pxeMacPath server env = none ∨ pxeMacPath server env = some (false, []) := by
    unfold pxeMacPath
    rcases formatMacPxe env with - | - | mac
    · exact .inl rfl
    · exact .inr rfl
    · exact getPxelinuxPath_overflow hdir mac
  have hrest : (pxeMacPath server env).orElse ((pxeIpaddrPaths server env (ipText ip) 8).orElse
      ((pxeEnvFiles server env).orElse (getPxelinuxPath server env defaultName))) = none := by
    rcases hmac with h | h
    · rw [h]
      rfl
    · rw [h, hip]
      rfl
  rcases huuid with h | h
  · rw [h]
    rfl
  · rw [h, hrest]
    rfl

/-- The names from the list on. -/
theorem listed_eq (server : Bytes → Bool) (hdir : (bootfileDir env).length ≠ maxPath+1) :
    (ListFits server env → (pxeEnvFiles server env).orElse (getPxelinuxPath server env defaultName) =
        some (sought server env (names (env.pxeFilesLoad.getD [])++[defaultName]))) ∧
      (¬ListFits server env →
        (pxeEnvFiles server env).orElse (getPxelinuxPath server env defaultName) = none) := by
  refine ⟨fun h => ?_, fun h => ?_⟩
  · rw [(pxeEnvFiles_eq hdir).1 h, getPxelinuxPath_eq hdir, orElse_sought]
  · rw [(pxeEnvFiles_eq hdir).2 h]
    rfl

/-- `y` asks for the names of `m`, or writes outside. -/
def Asks (server : Bytes → Bool) (env : Env) (m : List Bytes) (y : Search) : Prop :=
  y = some (sought server env m) ∨ y = none

theorem Asks.orElse {m : List Bytes} {y : Search} (hy : Asks server env m y) (l : List Bytes) :
    Asks server env (l++m) (Search.orElse (some (sought server env l)) y) := by
  by_cases hl : ∃ n ∈ l, Found server env n
  · exact .inl (orElse_found hl y m)
  rcases hy with rfl | rfl
  · exact .inl (orElse_sought l m)
  · exact .inr (orElse_none hl)

/-- One part in front of the others is right where a name is found in it, or they are right. -/
theorem Asks.sought_iff {m : List Bytes} {y : Search} (hy : Asks server env m y) (l : List Bytes) :
    Search.orElse (some (sought server env l)) y = some (sought server env (l++m)) ↔
      (∃ n ∈ l, Found server env n) ∨ y = some (sought server env m) := by
  by_cases hl : ∃ n ∈ l, Found server env n
  · exact iff_of_true (orElse_found hl y m) (.inl hl)
  rw [or_iff_right hl]
  rcases hy with rfl | rfl
  · exact iff_of_true (orElse_sought l m) rfl
  · rw [orElse_none hl]
    exact iff_of_false (fun h => nomatch h) fun h => nomatch h

theorem exists_toList {o : Option Bytes} {P : Bytes → Prop} :
    (∃ n ∈ o.toList, P n) ↔ ∃ n ∈ o, P n := by
  simp only [Option.mem_toList, Option.mem_def]

/-- The search is right just where it fits. -/
theorem search_iff (server : Bytes → Bool) (env : Env) (haddr : env.pxefileAddr.isSome) (ip : ℕ) :
    Right server env ip ↔ Fits server env ip := by
  unfold Right Fits
  by_cases hdir : (bootfileDir env).length = maxPath+1
  · rw [doPxeGet_overflow haddr hdir]
    exact iff_of_false (fun h => nomatch h) fun h => h.1 hdir
  rw [and_iff_right hdir, doPxeGet_some haddr, candidates, pxeUuidPath_eq hdir,
    pxeIpaddrPaths_eq hdir]
  obtain ⟨hfits, hnot⟩ := listed_eq server hdir
  generalize (pxeEnvFiles server env).orElse (getPxelinuxPath server env defaultName) = y at *
  generalize hm : names (env.pxeFilesLoad.getD [])++[defaultName] = m at hfits
  have hy : Asks server env m y := by
    by_cases h : ListFits server env
    · exact .inl (hfits h)
    · exact .inr (hnot h)
  have hyiff : y = some (sought server env m) ↔ ListFits server env := by
    refine ⟨fun h => ?_, hfits⟩
    by_contra hn
    rw [hnot hn] at h
    cases h
  have hip := hy.orElse (prefixes (ipText ip) 8)
  have hipiff := hy.sought_iff (prefixes (ipText ip) 8)
  rw [hyiff] at hipiff
  simp only [List.append_assoc, hm]
  by_cases hact : env.ethact.isSome
  · rw [and_iff_right hact, pxeMacPath_eq hdir hact,
      (hip.orElse (macName env).toList).sought_iff, exists_toList, hip.sought_iff, exists_toList, hipiff]
  · have hmac : pxeMacPath server env = none := by
      rw [pxeMacPath, formatMacPxe, Option.not_isSome_iff_eq_none.1 hact]
      rfl
    have hnone : ∀ l z, Asks server env l (Search.orElse none z) := fun _ _ => .inr rfl
    rw [hmac, (hnone _ _).sought_iff, exists_toList]
    exact or_congr_right (iff_of_false (fun h => nomatch h) fun h => hact h.1)

end Whole

/-- An environment with the list of the board. -/
def board : Env where
  pxeuuid := none
  ethact := some (egiga '0')
  ethaddr := some (word ['0', '0', ':', '5', '0', ':', '4', '3', ':', '0', '0', ':', '0', '2', ':', '0', '2'])
  eth1addr := none
  eth2addr := none
  eth3addr := none
  bootfile := none
  pxeFilesLoad := some (word (":default.arm-armadaxp-db:default.arm-armadaxp:default.arm".toList))
  pxefileAddr := some 0x100000

/-- The first name of the list has 23 characters. -/
theorem board_overflow : ¬Right (fun _ => false) board 0xc0a80101 := by
  intro h
  have hnone : doPxeGet (fun _ => false) board 0xc0a80101 = none := by decide +kernel
  rw [Right, hnone] at h
  cases h

theorem mac_found : ∃ n ∈ macName board, Found (fun path => path.length = 33) board n := by
  refine ⟨_, rfl, _, rfl, ?_⟩
  decide +kernel

/-- With the name of the Ethernet address on the server the search does not come to the list. -/
theorem search_board : Right (fun path => path.length = 33) board 0xc0a80101 :=
  (search_iff _ board rfl 0xc0a80101).2 ⟨by decide, .inr ⟨rfl, .inl mac_found⟩⟩

end UBoot.Pxe
