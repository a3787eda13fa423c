import UBoot.ProbeCycle

/-!
# The environment hash table of `lib/hashtable.c`

Creation, search, entry and deletion as the C code performs them, with the
32-bit unsigned arithmetic of the target written out. A string is the list of
bytes before its terminator. What the table calls but does not define is in
`Hooks`: whether each `strdup` gets its memory, the attribute lookups made for
a new entry, the permission check and the per-variable callbacks. A callback
that accepts may change the table, as those of the attribute variables do.
-/

set_option autoImplicit false

namespace UBoot.HashTable
open UBoot.ProbeCycle

abbrev CStr := List UInt8

instance : LawfulBEq CStr := inferInstance

inductive EnvOp where
  | create
  | delete
  | overwrite
  deriving DecidableEq, Repr

inductive Action where
  | find
  | enter
  deriving DecidableEq, Repr

inductive Errno where
  | einval
  | enomem
  | eperm
  | esrch
  deriving DecidableEq, Repr

/-- `ENTRY`; a pointer that may be `NULL` is an option, a callback is a number. -/
structure Entry where
  key : Option CStr
  data : Option CStr
  callback : Option ℕ
  flags : ℕ
  deriving DecidableEq, Repr

/-- `_ENTRY`: `used` is 0 in a slot never used, -1 in a deleted one. -/
structure Slot where
  used : ℤ
  entry : Entry
  deriving DecidableEq, Repr

/-- `struct hsearch_data` with an allocated table of the slots `0..size`. -/
structure HTab where
  table : ℕ → Slot
  size : ℕ
  filled : ℕ

def blank : Slot := ⟨0, ⟨none, none, none, 0⟩⟩

def HTab.setSlot (t : HTab) (i : ℕ) (s : Slot) : HTab :=
  { t with table := fun j => if j = i then s else t.table j }

def HTab.setEntry (t : HTab) (i : ℕ) (e : Entry) : HTab :=
  t.setSlot i { t.table i with entry := e }

/-- The three places where `hsearch_r` copies a string. -/
inductive AllocPoint where
  | overwriteData
  | newKey
  | newData
  deriving DecidableEq, Repr

structure Hooks where
  malloc : AllocPoint → Bool
  envCallbackInit : HTab → CStr → Option ℕ
  envFlagsInit : HTab → CStr → ℕ
  /-- `change_ok`, when the table has one; `true` is a denial. -/
  changeOk : Option (HTab → Entry → Option CStr → EnvOp → ℕ → Bool)
  /-- `none` rejects the change, otherwise the table the callback leaves. -/
  callback : ℕ → HTab → CStr → Option CStr → EnvOp → ℕ → Option HTab

def strdup (ok : Bool) (s : Option CStr) : Option CStr := if ok then s else none

def wrap32 (n : ℕ) : ℕ := n % 4294967296

/-! ## Creation -/

/-- The divisor at which the trial division of `isprime` stops. -/
@[grind]
def isprimeDiv (number : ℕ) : ℕ → ℕ → ℕ
  | 0, div => div
  | fuel+1, div => if wrap32 (div*div) < number ∧ number % div ≠ 0
      then isprimeDiv number fuel (div+2) else div

def isprime (number : ℕ) : Bool := number % isprimeDiv number number 3 ≠ 0

@[grind]
def primeFrom : ℕ → ℕ → ℕ
  | 0, nel => nel
  | fuel+1, nel => if isprime nel then nel else primeFrom fuel (wrap32 (nel+2))

/-- `sizeof(_ENTRY)` with 32-bit pointers. -/
def sizeofENTRY : ℕ := 20

/-- `hcreate_r` on a descriptor with no table; a table that does not fit the
address space is not allocated. -/
def hcreateR (nel : ℕ) : Option HTab :=
  let size := primeFrom 2147483648 (nel ||| 1)
  if (size+1)*sizeofENTRY < 4294967296 then some ⟨fun _ => blank, size, 0⟩ else none

/-! ## Search -/

/-- The string hash before the reduction to the table. -/
def hashKey (key : CStr) : ℕ :=
  key.foldr (fun c hval => wrap32 (wrap32 (hval*16)+c.toNat)) (wrap32 key.length)

def homeIndex (size : ℕ) (key : CStr) : ℕ :=
  let hval := hashKey key % size
  if hval = 0 then hval+1 else hval

/-- The second hash function; `size-2` is an unsigned subtraction. -/
def stride (size hval : ℕ) : ℕ := 1+hval % wrap32 (size+4294967294)

structure SearchResult where
  ret : ℕ
  /-- The slot of the entry that `*retval` points to. -/
  retval : Option ℕ
  htab : HTab
  errno : Option Errno

def HTab.fail (t : HTab) (e : Errno) : SearchResult := ⟨0, none, t, some e⟩

def denied (h : Hooks) (t : HTab) (idx : ℕ) (newval : Option CStr) (op : EnvOp) (flag : ℕ) : Bool :=
  match h.changeOk with
  | none => false
  | some f => f t (t.table idx).entry newval op flag

def runCallback (h : Hooks) (t : HTab) (idx : ℕ) (key : CStr) (value : Option CStr)
    (op : EnvOp) (flag : ℕ) : Option HTab :=
  match (t.table idx).entry.callback with
  | none => some t
  | some c => h.callback c t key value op flag

/-- `none` is the -1 that keeps the search going. The `int` field `used` is
converted to unsigned for the comparison. -/
def compareAndOverwriteEntry (h : Hooks) (key : CStr) (data : Option CStr) (action : Action)
    (t : HTab) (flag hval idx : ℕ) : Option SearchResult :=
  if (t.table idx).used % 4294967296 = hval ∧ (t.table idx).entry.key = some key then
    if action = .enter ∧ data ≠ none then
      if denied h t idx data .overwrite flag then some (t.fail .eperm)
      else match runCallback h t idx key data .overwrite flag with
        | none => some (t.fail .einval)
        | some t' =>
          let copy := strdup (h.malloc .overwriteData) data
          let t'' := t'.setEntry idx { (t'.table idx).entry with data := copy }
          if copy = none then some (t''.fail .enomem)
          else some ⟨idx, some idx, t'', none⟩
    else some ⟨idx, some idx, t, none⟩
  else none

inductive Probe where
  | done (r : SearchResult)
  | stop (idx : ℕ)

/-- The `do .. while` over the probe sequence; `none` when the fuel runs out. -/
@[grind]
def probeLoop (h : Hooks) (key : CStr) (data : Option CStr) (action : Action) (t : HTab)
    (flag hval hval2 : ℕ) : ℕ → ℕ → Option Probe
  | 0, _ => none
  | fuel+1, i =>
    let idx := back t.size hval2 i
    if idx = hval then some (.stop idx)
    else match compareAndOverwriteEntry h key data action t flag hval idx with
      | some r => some (.done r)
      | none => if (t.table idx).used = 0 then some (.stop idx)
          else probeLoop h key data action t flag hval hval2 fuel idx

def probeFrom (h : Hooks) (key : CStr) (data : Option CStr) (action : Action) (t : HTab)
    (flag : ℕ) : Option Probe :=
  let hval := homeIndex t.size key
  if (t.table hval).used = 0 then some (.stop hval)
  else match compareAndOverwriteEntry h key data action t flag hval hval with
    | some r => some (.done r)
    | none => probeLoop h key data action t flag hval (stride t.size hval) t.size hval

/-- Only the first probed slot is ever remembered as reusable. -/
def firstDeleted (t : HTab) (hval : ℕ) : ℕ := if (t.table hval).used = -1 then hval else 0

/-- `_hdelete`: the strings are freed, their pointers stay. -/
def hdelete (t : HTab) (idx : ℕ) : HTab :=
  let e := (t.table idx).entry
  { t.setSlot idx ⟨-1, { e with callback := none, flags := 0 }⟩ with
    filled := wrap32 (t.filled+4294967295) }

def createEntry (h : Hooks) (key : CStr) (data : Option CStr) (t : HTab) (flag hval idx : ℕ) :
    SearchResult :=
  let k := strdup (h.malloc .newKey) (some key)
  let d := strdup (h.malloc .newData) data
  let t1 := t.setSlot idx ⟨hval, { (t.table idx).entry with key := k, data := d }⟩
  if k = none ∨ d = none then t1.fail .enomem
  else
    let t2 := { t1 with filled := wrap32 (t1.filled+1) }
    let t3 := t2.setEntry idx { (t2.table idx).entry with callback := h.envCallbackInit t2 key }
    let t4 := t3.setEntry idx { (t3.table idx).entry with flags := h.envFlagsInit t3 key }
    if denied h t4 idx data .create flag then (hdelete t4 idx).fail .eperm
    else match runCallback h t4 idx key data .create flag with
      | none => (hdelete t4 idx).fail .einval
      | some t5 => ⟨1, some idx, t5, none⟩

/-- `hsearch_r`; `none` only if the probe loop does not end. -/
def hsearchR (h : Hooks) (key : CStr) (data : Option CStr) (action : Action) (t : HTab)
    (flag : ℕ) : Option SearchResult :=
  match probeFrom h key data action t flag with
  | none => none
  | some (.done r) => some r
  | some (.stop idx) =>
    match action with
    | .find => some (t.fail .esrch)
    | .enter =>
      if t.filled = t.size then some (t.fail .enomem)
      else
        let hval := homeIndex t.size key
        let first := firstDeleted t hval
        some (createEntry h key data t flag hval (if first ≠ 0 then first else idx))

structure DeleteResult where
  ret : ℕ
  htab : HTab
  errno : Option Errno

def hdeleteR (h : Hooks) (key : CStr) (t : HTab) (flag : ℕ) : Option DeleteResult :=
  match hsearchR h key none .find t 0 with
  | none => none
  | some r =>
    let idx := r.ret
    if idx = 0 then some ⟨0, t, some .esrch⟩
    else if denied h t idx none .delete flag then some ⟨0, t, some .eperm⟩
    else match runCallback h t idx key none .delete flag with
      | none => some ⟨0, t, some .einval⟩
      | some t' => some ⟨1, hdelete t' idx, none⟩

end UBoot.HashTable
