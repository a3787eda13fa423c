import UBoot.EnvText
import UBoot.HashTableMap

/-!
# An import is a run of table operations

Which entries and deletions `himport_r` makes is fixed by the text and the
list of names alone; the table is only changed by them.
-/

set_option autoImplicit false

namespace UBoot.EnvText
open UBoot.HashTable

theorem run_append (h : Hooks) (ops ops' : List Op) (t : HTab) :
    run h (ops++ops') t = (run h ops t).bind fun r =>
      (run h ops' r.2).map fun q => (r.1++q.1, q.2) := by
  induction ops generalizing t with
  | nil => simp [run]
  | cons op ops ih =>
    rw [List.cons_append, run, run]
    cases hop : apply h t op with
    | none => rfl
    | some r =>
      simp only [Option.bind_some, ih]
      cases run h ops r.2 with
      | none => rfl
      | some q =>
        simp only [Option.bind_some, Option.map_some]
        cases run h ops' q.2 <;> rfl

/-- The operation of an item, if it is wanted, and the names that are left. -/
def itemOps (flag : ℕ) (vars : List (Option CStr)) : Item → List Op × List (Option CStr)
  | .comment => ([], vars)
  | .delete name =>
    (if (dropVarFromSet name vars).1 then [.delete name flag] else [], (dropVarFromSet name vars).2)
  | .set name value =>
    (if (dropVarFromSet name vars).1 then [.enter name value flag] else [],
      (dropVarFromSet name vars).2)

/-- The operations of the parse loop, and the names that are left. -/
@[grind]
def importOps (sep : UInt8) (flag : ℕ) :
    ℕ → List UInt8 → List (Option CStr) → Option (List Op × List (Option CStr))
  | 0, _, _ => none
  | fuel+1, text, vars =>
    (parseItem sep text).bind fun r =>
      match r.2 with
      | [] => some (itemOps flag vars r.1)
      | c::_ =>
        if c = 0 then some (itemOps flag vars r.1)
        else (importOps sep flag fuel r.2 (itemOps flag vars r.1).2).map fun q =>
          ((itemOps flag vars r.1).1++q.1, q.2)

def deleteOps (flag : ℕ) (vars : List (Option CStr)) : List Op :=
  vars.filterMap fun v => v.map fun name => .delete name flag

/-- All operations of an import. -/
def himportOps (env : List UInt8) (sep : UInt8) (flag : ℕ) (vars : List CStr) :
    Option (List Op) :=
  (importOps sep flag (env.length+1) env (vars.map some)).map fun q => q.1++deleteOps flag q.2

variable (h : Hooks)

theorem applyItem_run (flag : ℕ) (t : HTab) (vars : List (Option CStr)) (item : Item) :
    applyItem h flag t vars item = (run h (itemOps flag vars item).1 t).map fun r =>
      (r.2, (itemOps flag vars item).2) := by
  cases item with
  | comment => rfl
  | delete name =>
    simp only [applyItem, itemOps]
    by_cases hw : (dropVarFromSet name vars).1 = true
    · rw [if_pos hw, if_pos hw, run, apply]
      cases hdeleteR h name t flag <;> rfl
    · rw [if_neg hw, if_neg hw]
      rfl
  | set name value =>
    simp only [applyItem, itemOps]
    by_cases hw : (dropVarFromSet name vars).1 = true
    · rw [if_pos hw, if_pos hw, run, apply]
      cases hsearchR h name (some value) .enter t flag <;> rfl
    · rw [if_neg hw, if_neg hw]
      rfl

theorem importLoop_run (sep : UInt8) (flag fuel : ℕ) (text : List UInt8) (t : HTab)
    (vars : List (Option CStr)) :
    importLoop h sep flag fuel text t vars = (importOps sep flag fuel text vars).bind fun q =>
      (run h q.1 t).map fun r => (r.2, q.2) := by
  induction fuel generalizing text t vars with
  | zero => rfl
  | succ fuel ih =>
    rw [importLoop, importOps]
    cases parseItem sep text with
    | none => rfl
    | some r =>
      obtain ⟨item, rest⟩ := r
      simp only [Option.bind_some, applyItem_run]
      cases rest with
      | nil =>
        simp only [Option.bind_some]
        cases run h (itemOps flag vars item).1 t <;> rfl
      | cons c rest =>
        by_cases hc : c = 0
        · simp only [if_pos hc, Option.bind_some]
          cases run h (itemOps flag vars item).1 t <;> rfl
        · simp only [if_neg hc, ih]
          cases hq : importOps sep flag fuel (c::rest) (itemOps flag vars item).2 with
          | none =>
            cases run h (itemOps flag vars item).1 t with
            | none => rfl
            | some p => simp only [Option.map_some, Option.bind_some, hq]; rfl
          | some q =>
            simp only [Option.map_some, Option.bind_some, run_append]
            cases run h (itemOps flag vars item).1 t with
            | none => rfl
            | some p =>
              simp only [Option.map_some, Option.bind_some, hq]
              cases run h q.1 p.2 <;> rfl

theorem deleteRest_run (flag : ℕ) (vars : List (Option CStr)) (t : HTab) :
    deleteRest h flag vars t = (run h (deleteOps flag vars) t).map Prod.snd := by
  induction vars generalizing t with
  | nil => rfl
  | cons v vars ih =>
    cases v with
    | none => exact ih t
    | some name =>
      rw [deleteRest, deleteOps, List.filterMap_cons_some (Option.map_some ..), run, apply]
      cases hdeleteR h name t flag with
      | none => rfl
      | some r =>
        simp only [Option.bind_some, Option.map_some, ih, Option.map_map]
        rfl

/-- `himport_r` runs its operations on the given table or on a new one. -/
theorem himportR_run (htab : Option HTab) (env : List UInt8) (sep : UInt8) (flag : ℕ)
    (vars : List CStr) (t : HTab) (ht : importTable htab env.length flag = some t) :
    himportR h htab true env sep flag vars =
      (himportOps env sep flag vars).bind fun ops =>
        (run h ops t).map fun r => (1, some r.2) := by
  simp only [himportR, himportOps, ht, importLoop_run, deleteRest_run, Bool.not_true,
    Bool.false_eq_true, if_false]
  cases importOps sep flag (env.length+1) env (vars.map some) with
  | none => rfl
  | some q =>
    simp only [Option.bind_some, Option.map_some, run_append]
    cases run h q.1 t with
    | none => rfl
    | some r =>
      simp only [Option.map_some, Option.bind_some]
      cases run h (deleteOps flag q.2) r.2 <;> rfl

end UBoot.EnvText
