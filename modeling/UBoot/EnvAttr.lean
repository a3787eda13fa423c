import UBoot.HashTable

/-!
# Attribute lists of environment variables: `common/env_attr.c`

A list is a string `name:attributes,name:attributes,...`. It is read in two
ways: `env_attr_walk` goes over its entries from the front, and
`env_attr_lookup` looks for one name from the back.
-/

set_option autoImplicit false

namespace UBoot.EnvAttr
open UBoot.HashTable

def listDelim : UInt8 := 44
def attrSep : UInt8 := 58
def space : UInt8 := 32

/-! ## Walking over a list -/

def isspace (c : UInt8) : Bool := (9 ≤ c ∧ c ≤ 13) ∨ c = 32 ∨ c = 160

def strim (s : CStr) : CStr := ((s.dropWhile isspace).reverse.dropWhile isspace).reverse

/-- The parts of a list between the delimiters. -/
@[grind]
def entries : CStr → List CStr
  | [] => [[]]
  | c::list =>
    if c = listDelim then []::entries list
    else match entries list with
      | [] => [[c]]
      | e::es => (c::e)::es

/-- The name of an entry and its attributes, `none` if it has no separator. An entry
without a name is passed over. -/
def parseEntry (entry : CStr) : Option (CStr × Option CStr) :=
  let name := strim (entry.takeWhile (· ≠ attrSep))
  let attributes := match entry.dropWhile (· ≠ attrSep) with
    | [] => none
    | _::attributes => some (strim attributes)
  if name = [] then none else some (name, attributes)

/-- `env_attr_walk`; a callback that returns something else than 0 ends it. -/
@[grind]
def walkEntries {S : Type} (callback : S → CStr → Option CStr → ℤ × S) :
    List CStr → S → ℤ × S
  | [], s => (0, s)
  | e::es, s =>
    match parseEntry e with
    | none => walkEntries callback es s
    | some (name, attributes) =>
      let r := callback s name attributes
      if r.1 ≠ 0 then r else walkEntries callback es r.2

def envAttrWalk {S : Type} (callback : S → CStr → Option CStr → ℤ × S) (attrList : Option CStr)
    (s : S) : ℤ × S :=
  match attrList with
  | none => (1, s)
  | some list => walkEntries callback (entries list) s

/-! ## Looking up a name -/

/-- The first place of the name in a string that starts at the offset. -/
@[grind]
def strstr (name : CStr) : CStr → ℕ → Option ℕ
  | [], offset => if name = [] then some offset else none
  | c::s, offset => if name.isPrefixOf (c::s) then some offset else strstr name s (offset+1)

/-- The loop of `reverse_strstr`. -/
@[grind]
def reverseLoop (list name : CStr) (start : Option ℕ) : ℕ → ℕ → Option ℕ → Option ℕ
  | 0, _, result => result
  | fuel+1, searched, result =>
    match strstr name (list.drop searched) searched with
    | none => result
    | some place =>
      if start.any (fun s => s < place+name.length) then result
      else reverseLoop list name start fuel (place+1) (some place)

/-- The last place of the name in a list that ends before `start`, if that is given. -/
def reverseStrstr (list name : CStr) (start : Option ℕ) : Option ℕ :=
  if name = [] then some 0 else reverseLoop list name start (list.length+1) 0 none

/-- The name stands alone at the place. The bytes in front of the list, the nearest one first,
are read when only spaces are before the name. -/
def exactMatch (before list name : CStr) (place : ℕ) : Bool :=
  let prev := ((list.take place).reverse ++ before).dropWhile (· = space)
  let next := (list.drop (place+name.length)).dropWhile (· = space)
  (place = 0 ∨ prev.head? = some listDelim) ∧
    (next.head? = some attrSep ∨ next.head? = some listDelim ∨ next.head? = none)

/-- The loop of `env_attr_lookup`; the outer `none` is a loop without an end. -/
@[grind]
def lookupLoop (before list name : CStr) : ℕ → Option ℕ → Option (Option ℕ)
  | _, none => some none
  | 0, some _ => none
  | fuel+1, some place =>
    if exactMatch before list name place then some (some place)
    else lookupLoop before list name fuel (reverseStrstr list name (some place))

/-- The attributes behind a name. -/
def attributesAt (rest : CStr) : CStr :=
  match rest.dropWhile (· = space) with
  | [] => []
  | c::rest =>
    if c = attrSep then
      (rest.dropWhile (· = space)).takeWhile fun c => c ≠ listDelim ∧ c ≠ space
    else []

/-- `env_attr_lookup` with a list; the inner `none` is a name that is not found. -/
def envAttrLookup (before list name : CStr) : Option (Option CStr) :=
  (lookupLoop before list name (list.length+1) (reverseStrstr list name none)).map fun place =>
    place.map fun place => attributesAt (list.drop (place+name.length))

end UBoot.EnvAttr
