import UBoot.Crc32
import UBoot.EnvAccess
import UBoot.EnvImageImport
import UBoot.FwEnvMap

/-!
# Three readers of one environment

The values of an environment are read from the table, from the image before
the table is there, and from the image by the Linux tool. The exporter escapes
backslashes and the importer drops them; the readers of the image take the
bytes as they are.
-/

set_option autoImplicit false

namespace UBoot.EnvViews
open UBoot.HashTable UBoot.EnvText UBoot.ByteStore UBoot.EnvScan UBoot.EnvFlags UBoot.FwEnv
open UBoot.Crc32

/-! ## The tool on an exported image -/

/-- The tool finds every variable of the table in the image, with its value. -/
def ToolReads (m : EnvMap) (e : Export) : Prop :=
  e.Inside ∧ ∀ mem name v, m.lookup name = some v →
    fwGetenv (store mem 0 e.buffer) e.size name = some (some v)

theorem hexportR_ok (t : HTab) (sep : UInt8) (resp calloc : Bool) (size : ℕ) (e : Export)
    (h : hexportR t sep 0 resp calloc size [] = .ok e) :
    e = exported t sep size ∧ (size = 0 ∨ totlen sep (liveEntries t) < size) := by
  simp only [hexportR, selected_all] at h
  split at h
  · cases h
  · rename_i hsize
    split at h
    · cases h
    · cases h
      exact ⟨rfl, by omega⟩

theorem escaped_eq_iff (v : CStr) (hv : 0 ∉ v) : escaped 0 v = v ↔ backslash ∉ v := by
  have hcount := countP_special_nul v fun c hc h => hv (h ▸ hc)
  have hlen := escaped_length 0 v
  constructor
  · intro h
    rw [h, hcount] at hlen
    exact List.count_eq_zero.mp (by omega)
  · intro h
    have hone : ∀ c ∈ v, (if special 0 c then [backslash, c] else [c]) = [c] := by
      intro c hc
      have h0 : c ≠ 0 := fun h' => hv (h' ▸ hc)
      have h1 : c ≠ backslash := fun h' => h (h' ▸ hc)
      simp [special, h0, h1]
    rw [escaped, List.flatMap_congr hone]
    simp

theorem lookup_map (f : CStr → CStr) (es : List Pair) (name : CStr) :
    lookup name (es.map fun p => (p.1, f p.2)) = (lookup name es).map f := by
  induction es with
  | nil => rfl
  | cons e es ih =>
    rw [List.map_cons, lookup, lookup]
    by_cases he : e.1 = name
    · rw [if_pos he, if_pos he]
      rfl
    · rw [if_neg he, if_neg he, ih]

theorem lookup_sorted (t : HTab) (m : EnvMap) (hm : Models t m) (name : CStr) :
    lookup name (sorted t) = m.lookup name := by
  cases hl : lookup name (sorted t) with
  | some v => exact ((mem_sorted t m hm name v).mp (mem_of_lookup _ name v hl)).symm
  | none =>
    cases hml : m.lookup name with
    | none => rfl
    | some v =>
      obtain ⟨w, hw⟩ := lookup_of_mem (sorted t) (name, v) ((mem_sorted t m hm name v).mpr hml)
      rw [hl] at hw
      cases hw

/-- The entries of an exported image. -/
def exportedPairs (t : HTab) : List Pair := (sorted t).map fun p => (p.1, escaped 0 p.2)

theorem exported_packed (t : HTab) (size : ℕ) :
    (exported t 0 size).text = packed (exportedPairs t) ++ [0] := by
  rw [exported_text, exportedPairs, packed, List.flatMap_map]
  rfl

theorem escaped_nul (v : CStr) (hv : 0 ∉ v) : 0 ∉ escaped 0 v := by
  intro h
  obtain ⟨c, hc, hm⟩ := List.mem_flatMap.mp h
  have h0 : (0 : UInt8) ≠ backslash := by decide
  have hc0 : (0 : UInt8) ≠ c := fun h' => hv (h' ▸ hc)
  split at hm
  · simp [h0, hc0] at hm
  · simp [hc0] at hm

section
variable (t : HTab) (m : EnvMap) (hm : Models t m)
  (hp : ∀ k v, m.lookup k = some v → Proper (k, v))
include hm hp

/-- The tool reads the escaped values. -/
theorem fwGetenv_exported (size : ℕ) (hin : (exported t 0 size).Inside) (mem : Memory) (name : CStr)
    (hn : 61 ∉ name) :
    fwGetenv (store mem 0 (exported t 0 size).buffer) (exported t 0 size).size name =
      some ((m.lookup name).map (escaped 0)) := by
  have hproper : ∀ e ∈ exportedPairs t, Proper e := by
    intro e he
    obtain ⟨p, hp', rfl⟩ := List.mem_map.mp he
    obtain ⟨h1, h2, h3⟩ := hp p.1 p.2 ((mem_sorted t m hm p.1 p.2).mp hp')
    exact ⟨h1, h2, escaped_nul p.2 h3⟩
  have hholds : Holds (store mem 0 (exported t 0 size).buffer) 0 (packed (exportedPairs t) ++ [0]) := by
    refine holds_of_start _ 0 _ _ (holds_store mem 0 _) ?_
    rw [Export.buffer, exported_packed]
    exact List.prefix_append _ _
  have hlen : (packed (exportedPairs t)).length ≤ (exported t 0 size).size := by
    rw [Export.Inside, exported_packed, List.length_append] at hin
    omega
  rw [fwGetenv_packed hproper hholds hlen name hn, exportedPairs, lookup_map, lookup_sorted t m hm]

/-- The tool reads what the table holds exactly if no value has a backslash. -/
theorem toolReads_iff (resp calloc : Bool) (size : ℕ) (e : Export)
    (he : hexportR t 0 0 resp calloc size [] = .ok e) :
    ToolReads m e ↔ ∀ k v, m.lookup k = some v → backslash ∉ v := by
  obtain ⟨rfl, hsize⟩ := hexportR_ok t 0 resp calloc size e he
  have hlive : ∀ e ∈ liveEntries t, m.lookup (deref e.key) = some (deref e.data) :=
    mem_liveEntries t m hm
  constructor
  · rintro ⟨hin, hread⟩ k v hk
    obtain ⟨-, h61, h0⟩ := hp k v hk
    have hget := hread (fun _ => 0) k v hk
    rw [fwGetenv_exported t m hm hp size hin _ k h61, hk, Option.map_some, Option.some.injEq,
      Option.some.injEq] at hget
    exact (escaped_eq_iff v h0).mp hget
  · intro hno
    have hzero : backslashes (liveEntries t) = 0 := by
      rw [backslashes, List.sum_eq_zero]
      intro n hn
      obtain ⟨e, he, rfl⟩ := List.mem_map.mp hn
      exact List.count_eq_zero.mpr (hno _ _ (hlive e he))
    have hin : (exported t 0 size).Inside := by
      refine (exported_inside_iff t 0 size hsize ?_).mpr (.inr (by omega))
      exact fun e he c hc h0 => (hp _ _ (hlive e he)).2.2 (h0 ▸ hc)
    refine ⟨hin, fun mem name v hname => ?_⟩
    obtain ⟨-, h61, h0⟩ := hp name v hname
    rw [fwGetenv_exported t m hm hp size hin mem name h61, hname, Option.map_some,
      (escaped_eq_iff v h0).mpr (hno name v hname)]

end

/-! ## The loader on an edited image -/

/-- An import gives every variable the value that the tool finds. -/
def LoaderReads (h : Hooks) (htab : Option HTab) (data : Memory) (size : ℕ) : Prop :=
  ∃ t', himportR h htab true (load data 0 size) 0 0 [] = some (1, some t') ∧
    ∀ name, 61 ∉ name → fwGetenv data size name = some (valueOf t' name)

theorem loaderReads_iff (h : Hooks) (ha : Accepting h) (htab : Option HTab) (data : Memory)
    (size : ℕ) (es : List Pair) (hi : Image data size es) (t0 : HTab)
    (ht0 : importTable htab size 0 = some t0)
    (hclear : (∃ e ∈ es, e.2 = []) → Clear h (imported es) t0) :
    LoaderReads h htab data size ↔ Faithful t0.size es := by
  obtain ⟨t', m', himp, hm', hiff, hall⟩ := himport_image h ha htab data size es hi t0 ht0 hclear
  constructor
  · rintro ⟨t'', himp', hread⟩
    rw [himp, Option.some.injEq, Prod.mk.injEq, Option.some.injEq] at himp'
    obtain ⟨-, rfl⟩ := himp'
    refine hiff.mp fun name v hname => ?_
    have h61 := (hi.proper _ (mem_of_lookup es name v hname)).2.1
    have hget := hread name h61
    rw [fwGetenv_image hi name h61, valueOf_models t' m' hm', Option.some.injEq, hname] at hget
    exact hget.symm
  · intro hf
    refine ⟨t', himp, fun name h61 => ?_⟩
    rw [fwGetenv_image hi name h61, valueOf_models t' m' hm', hall hf name]

/-- An edit of a well-formed area leaves one. -/
theorem edited_image (tool : Tool) (data data' : Memory) (es : List Pair)
    (hi : Image data tool.size es) (name value : CStr) (hn : Proper (name, value)) (r : Ret)
    (hw : fwEnvWrite tool name value data = some (r, data')) :
    ∃ es', Image data' tool.size es' := by
  obtain ⟨r', data'', hw', ho⟩ := fwEnvWrite_outcome tool hi name value hn
  rw [hw, Option.some.injEq, Prod.mk.injEq] at hw'
  obtain ⟨-, rfl⟩ := hw'
  by_cases hp : Permitted tool data es name value
  · by_cases hf : Fits tool es name value
    · exact ⟨_, (ho.done hp hf).2⟩
    · exact ⟨_, (ho.overflow hp hf).2.1⟩
  · rw [(ho.denied hp).2]
    exact ⟨es, hi⟩

/-- The variable `a` of a small image, changed by the tool. -/
theorem small_edit (value : CStr) (hv : value ≠ []) (hlen : value.length ≤ 4) (h0 : 0 ∉ value) :
    ∃ r data', fwEnvWrite smallTool [97] value smallData = some (r, data') ∧
      Image data' smallTool.size [([97], value)] := by
  obtain ⟨r, data', hw, ho⟩ := fwEnvWrite_outcome smallTool smallData_image [97] value
    ⟨by simp, by simp, h0⟩
  have hp : Permitted smallTool smallData [([97], [49])] [97] value := by
    simp only [Permitted, lookup, if_true, if_neg hv]
    rfl
  have hf : Fits smallTool [([97], [49])] [97] value := by
    refine .inr ?_
    simp only [erased, if_true, packed_nil, line_length, List.length_nil, List.length_cons]
    change 0+(0+1+value.length+2)+1 ≤ 8
    omega
  refine ⟨r, data', hw, ?_⟩
  have hdone := (ho.done hp hf).2
  simpa only [written, erased, if_true, if_neg hv, List.nil_append] using hdone

theorem importTable_small : importTable none smallTool.size 0 = some (emptyTable 131) := by rfl

theorem single_lookup (k v k' v' : CStr) (hl : lookup k' [(k, v)] = some v') : k = k' ∧ v = v' := by
  rw [lookup, lookup] at hl
  by_cases hk : k = k'
  · rw [if_pos hk, Option.some.injEq] at hl
    exact ⟨hk, hl⟩
  · rw [if_neg hk] at hl
    cases hl

theorem filledTable_proper (v : CStr) (h0 : 0 ∉ v) (k' v' : CStr)
    (hl : (mapRun 5 [.enter [97] v 0] ∅).2.lookup k' = some v') : Proper (k', v') := by
  obtain ⟨rfl, rfl⟩ := lookup_single _ _ _ _ hl
  exact ⟨by simp, by simp, h0⟩

/-- `env_t`: the checksum and the data area. -/
structure EnvT where
  crc : UInt32
  data : Memory

/-- What is fixed for a board: `ENV_SIZE`, the size of the header in front of the data, and the
default environment. -/
structure Config where
  envSize : ℕ
  headerSize : ℕ
  defaultEnvironment : List UInt8

variable (h : Hooks) (c : Config)

/-- `set_default_env` with a reason for it; whether the import succeeds is not looked at. -/
def setDefaultEnv (htab : Option HTab) : Option (Option HTab) :=
  if c.envSize < c.defaultEnvironment.length then some htab
  else (himportR h htab true c.defaultEnvironment 0 0 []).map Prod.snd

/-- `env_import`: its value and the table. -/
def envImport (ep : EnvT) (check : Bool) (htab : Option HTab) : Option (ℕ × Option HTab) :=
  let data := load ep.data 0 c.envSize
  if check && crc32 0 data ≠ ep.crc then (setDefaultEnv h c htab).map fun t => (0, t)
  else (himportR h htab true data 0 0 []).bind fun (ok, t) =>
    if ok ≠ 0 then some (1, t) else (setDefaultEnv h c t).map fun t => (0, t)

theorem getenvF_image (data : Memory) (size header : ℕ) (es : List Pair) (hi : Image data size es)
    (name : CStr) (hn : 61 ∉ name) (v : CStr) (hl : lookup name es = some v) (len : ℕ)
    (hlen : v.length < len) : getenvF data (size+header) name len = some (some (v.length, v)) := by
  have hlt := hi.length_lt
  rw [getenvF]
  rcases scan_lookup data (size+header) es hi.proper
    (holds_of_start data 0 _ _ hi.holds (packed_prefix_image es)) (by omega) name hn with
    ⟨hl', -⟩ | ⟨w, env, nxt, val, hl', hr, hv⟩
  · rw [hl] at hl'
    cases hl'
  · rw [hl, Option.some.injEq] at hl'
    subst hl'
    rw [hr, Option.map_some]
    simp only [hv, if_pos hlen]

/-- `getenv_f`, with a buffer that is large enough, and `getenv` after the import give the
variable the same value. -/
def ReadsAgree (ep : EnvT) (htab : Option HTab) (name : CStr) : Prop :=
  ∃ t' value, envImport h c ep true htab = some (1, some t') ∧ valueOf t' name = some value ∧
    ∀ len, value.length < len →
      getenvF ep.data (c.envSize+c.headerSize) name len = some (some (value.length, value))

/-- A variable is read alike if the import keeps its first value. -/
theorem readsAgree_iff (ep : EnvT) (es : List Pair) (hi : Image ep.data c.envSize es)
    (hcrc : crc32 0 (load ep.data 0 c.envSize) = ep.crc) (htab : Option HTab) (t' : HTab) (m' : EnvMap)
    (himp : himportR h htab true (load ep.data 0 c.envSize) 0 0 [] = some (1, some t'))
    (hm' : Models t' m') (name v : CStr) (hname : lookup name es = some v) :
    ReadsAgree h c ep htab name ↔ m'.lookup name = some v := by
  have h61 := (hi.proper _ (mem_of_lookup es name v hname)).2.1
  have henv : envImport h c ep true htab = some (1, some t') := by
    simp [envImport, hcrc, himp]
  have hget := getenvF_image ep.data c.envSize c.headerSize es hi name h61 v hname
  constructor
  · rintro ⟨t'', w, henv', hval, hearly⟩
    rw [henv, Option.some.injEq, Prod.mk.injEq, Option.some.injEq] at henv'
    obtain ⟨-, rfl⟩ := henv'
    have hw := hearly (max w.length v.length+1) (by omega)
    rw [hget _ (by omega)] at hw
    simp only [Option.some.injEq, Prod.mk.injEq] at hw
    rw [← valueOf_models t' m' hm', hval, hw.2]
  · intro hl
    exact ⟨t', v, henv, by rw [valueOf_models t' m' hm', hl], hget⟩

/-- An image of one variable, with its checksum. -/
def singleEnv (value : CStr) : EnvT :=
  let data := store (fun _ => 0) 0 (image [([97], value)])
  ⟨crc32 0 (load data 0 8), data⟩

def smallConfig : Config := ⟨8, 4, [0, 0]⟩

theorem singleEnv_image (value : CStr) (hlen : value.length ≤ 4) (h0 : 0 ∉ value) :
    Image (singleEnv value).data smallConfig.envSize [([97], value)] := by
  refine ⟨fun e he => ?_, holds_store _ 0 _, ?_⟩
  · rw [List.mem_singleton.mp he]
    exact ⟨by simp, by simp, h0⟩
  · simp only [image, packed, line, List.flatMap_cons, List.flatMap_nil, List.length_append,
      List.length_cons, List.length_nil, reduceCtorEq, if_false]
    change _ ≤ 8
    omega

theorem not_empty_value (value : CStr) (hv : value ≠ []) (ops : List Op) :
    (∃ e ∈ [(([97] : CStr), value)], e.2 = []) → Clear permissive ops (emptyTable 131) := by
  rintro ⟨e, he, h0⟩
  rw [List.mem_singleton.mp he] at h0
  exact absurd h0 hv

end UBoot.EnvViews
