import UBoot.Bootm

/-!
# The image that `bootm_load_os` leaves at the load address

The image is moved or decompressed first and the ranges are compared
afterwards, so an overlap is reported when the damage is done. An image that
stays in place is not compared with its blob.
-/

set_option autoImplicit false

namespace UBoot.Bootm

abbrev Ram := UInt32 → UInt8

/-- `memmove_wd` without a watchdog. -/
def memmoveWd (target source len : UInt32) (m : Ram) : Ram :=
  if target = source then m
  else fun a => if a-target < len then m (source+(a-target)) else m a

def bytesAt (m : Ram) (a n : UInt32) : List UInt8 :=
  (List.range n.toNat).map fun i => m (a+UInt32.ofNat i)

/-- The addresses from `a` up to `b` and those from `s` up to `e` have none in common. -/
def Apart (a b s e : UInt32) : Prop := ∀ x, ¬(a ≤ x ∧ x < b ∧ s ≤ x ∧ x < e)

theorem apart_of_not_overlap (a b s e : UInt32) (h : ¬(a < e ∧ s < b)) : Apart a b s e := by
  rintro x ⟨ha, hb, hs, he⟩
  exact h ⟨UInt32.lt_of_le_of_lt ha he, UInt32.lt_of_le_of_lt hs hb⟩

/-- What is apart from a range is apart from a part of it. -/
theorem Apart.part (a b s e s' e' : UInt32) (h : Apart a b s e) (hs : s ≤ s') (he : e' ≤ e) :
    Apart a b s' e' := by
  rintro x ⟨ha, hb, hs', he'⟩
  exact h x ⟨ha, hb, UInt32.le_trans hs hs', UInt32.lt_of_lt_of_le he' he⟩

theorem bytesAt_memmoveWd (target source len : UInt32) (m : Ram) :
    bytesAt (memmoveWd target source len m) target len = bytesAt m source len := by
  apply List.map_congr_left
  intro i hi
  have hn : (UInt32.ofNat i).toNat = i :=
    UInt32.toNat_ofNat_of_lt' (lt_trans (List.mem_range.mp hi) len.toNat_lt)
  have hl : UInt32.ofNat i < len := by
    rw [UInt32.lt_iff_toNat_lt, hn]
    exact List.mem_range.mp hi
  have ho : target+UInt32.ofNat i-target = UInt32.ofNat i := by
    rw [UInt32.add_comm, UInt32.add_sub_cancel]
  by_cases h : target = source
  · simp only [memmoveWd, h, ↓reduceIte]
  · simp only [memmoveWd, h, ↓reduceIte, ho, hl]

/-- The formats of the decompressors: what a packed image stands for. -/
abbrev Expansion := UInt8 → List UInt8 → Option (List UInt8)

/-- What the functions of other files do to the memory. A decompressor that succeeds has
written the image, unless it has written over what it was reading. -/
structure Honest {W : Type} (c : Callees W) (ram : W → Ram) (expand : Expansion) : Prop where
  move : ∀ target source len w,
    ram (c.memmoveWd target source len w) = memmoveWd target source len (ram w)
  flush : ∀ a n w, ram (c.flushCache a n w) = ram w
  unpack : ∀ comp unpack, c.decompress comp = some unpack → ∀ target source len w n w',
    unpack target source len w = (some n, w') → target ≤ target+n → source ≤ source+len →
    Apart target (target+n) source (source+len) →
    expand comp (bytesAt (ram w) source len) = some (bytesAt (ram w') target n)

/-- The kernel of an image as it is in memory. -/
def kernelOf (expand : Expansion) (os : ImageInfo) (m : Ram) : Option (List UInt8) :=
  if os.comp = 0 then some (bytesAt m os.imageStart os.imageLen)
  else expand os.comp (bytesAt m os.imageStart os.imageLen)

/-- The image that is printed as `XIP`. -/
def InPlace (os : ImageInfo) : Prop :=
  os.comp = 0 ∧ (os.load = os.start ∨ os.load = os.imageStart)

/-- The blob holds the image. -/
def Holds (os : ImageInfo) : Prop :=
  os.start ≤ os.imageStart ∧ os.imageStart ≤ os.imageStart+os.imageLen ∧
    os.imageStart+os.imageLen ≤ os.stop

variable {W : Type} (c : Callees W) (ram : W → Ram) (expand : Expansion)

theorem finishLoad_ok (hc : Honest c ram expand) (os : ImageInfo) (noOverlap : Bool)
    (stop loadEnd : UInt32) (w w' : W)
    (h : finishLoad c os noOverlap stop w = (0, loadEnd, w')) :
    loadEnd = stop ∧ ram w' = ram w ∧
      (noOverlap = false → ¬(os.load < os.stop ∧ os.start < stop)) := by
  unfold finishLoad at h
  split at h
  · exact absurd (Prod.mk.inj h).1 (by decide)
  · rename_i ho
    obtain ⟨rfl, rfl⟩ : stop = loadEnd ∧ c.flushCache os.load ((stop-os.load)*4) w = w' := by
      simpa using h
    refine ⟨rfl, hc.flush _ _ w, ?_⟩
    intro hn hov
    exact ho ⟨by simp [hn], hov⟩

/-- When `bootm_load_os` returns 0 for a range that does not wrap, the image is left in place,
or all of it is in a range apart from its blob. -/
theorem load_complete (hc : Honest c ram expand) (os : ImageInfo) (w w' : W) (loadEnd : UInt32)
    (h : bootmLoadOs c os w = (0, loadEnd, w')) (hwrap : os.load ≤ loadEnd)
    (hin : os.comp ≠ 0 → Holds os) :
    (InPlace os ∧ ram w' = ram w ∧ loadEnd = os.load+os.imageLen ∧
      (os.load = os.imageStart →
        kernelOf expand os (ram w) = some (bytesAt (ram w') os.load (loadEnd-os.load)))) ∨
    (¬InPlace os ∧ Apart os.load loadEnd os.start os.stop ∧
      kernelOf expand os (ram w) = some (bytesAt (ram w') os.load (loadEnd-os.load))) := by
  have hlen : ∀ n, os.load+n-os.load = n := by
    intro n
    rw [UInt32.add_comm, UInt32.add_sub_cancel]
  unfold bootmLoadOs at h
  split at h
  case isTrue hcomp =>
    split at h
    case isTrue hx =>
      obtain ⟨rfl, hr, -⟩ := finishLoad_ok c ram expand hc os true _ loadEnd w w' h
      refine .inl ⟨⟨hcomp, hx⟩, hr, rfl, ?_⟩
      intro hl
      rw [kernelOf, if_pos hcomp, hlen, hr, hl]
    case isFalse hx =>
      obtain ⟨rfl, hr, ho⟩ := finishLoad_ok c ram expand hc os false _ loadEnd _ w' h
      refine .inr ⟨fun hp => hx hp.2, apart_of_not_overlap _ _ _ _ (ho rfl), ?_⟩
      rw [kernelOf, if_pos hcomp, hlen, hr, hc.move, bytesAt_memmoveWd]
  case isFalse hcomp =>
    split at h
    case h_1 => exact absurd (Prod.mk.inj h).1 (by decide)
    case h_2 unpack hu =>
      split at h
      case h_1 => exact absurd (Prod.mk.inj h).1 (by decide)
      case h_2 n w₁ hrun =>
        obtain ⟨rfl, hr, ho⟩ := finishLoad_ok c ram expand hc os false _ loadEnd w₁ w' h
        have hap := apart_of_not_overlap _ _ _ _ (ho rfl)
        refine .inr ⟨fun hp => hcomp hp.1, hap, ?_⟩
        have hb := hin hcomp
        rw [kernelOf, if_neg hcomp, hlen, hr]
        exact hc.unpack os.comp unpack hu _ _ _ w n w₁ hrun hwrap hb.2.1
          (Apart.part _ _ _ _ _ _ hap hb.1 hb.2.2)

/-! ## A decompressor of stored data -/

/-- The loop that copies a stored block, one byte after another. -/
def copyStored : ℕ → UInt32 → UInt32 → Ram → Ram
  | 0, _, _, m => m
  | n+1, target, source, m => copyStored n (target+1) (source+1) (Function.update m target (m source))

theorem toNat_succ (a : UInt32) (n : ℕ) (h : a.toNat+(n+1) < 2^32) : (a+1).toNat = a.toNat+1 := by
  rw [UInt32.toNat_add, UInt32.toNat_one, Nat.mod_eq_of_lt (by omega)]

theorem copyStored_below (n : ℕ) (target source : UInt32) (m : Ram) (h : target.toNat+n < 2^32)
    (a : UInt32) (ha : a < target) : copyStored n target source m a = m a := by
  induction n generalizing target source m with
  | zero => rfl
  | succ n ih =>
    have ht := toNat_succ target n h
    have hlt : a < target+1 := by
      rw [UInt32.lt_iff_toNat_lt] at ha ⊢
      omega
    rw [copyStored, ih (target+1) (source+1) _ (by omega) hlt]
    exact Function.update_of_ne (UInt32.ne_of_lt ha) _ m

theorem copyStored_apart (n : ℕ) (target source : UInt32) (m : Ram) (ht : target.toNat+n < 2^32)
    (hs : source.toNat+n < 2^32)
    (hap : target.toNat+n ≤ source.toNat ∨ source.toNat+n ≤ target.toNat) (i : ℕ) (hi : i < n) :
    copyStored n target source m (target+UInt32.ofNat i) = m (source+UInt32.ofNat i) := by
  induction n generalizing target source m i with
  | zero => omega
  | succ n ih =>
    have ht' := toNat_succ target n ht
    have hs' := toNat_succ source n hs
    cases i with
    | zero =>
      have hlt : target < target+1 := by
        rw [UInt32.lt_iff_toNat_lt]
        omega
      rw [copyStored, show UInt32.ofNat 0 = 0 from rfl, UInt32.add_zero, UInt32.add_zero,
        copyStored_below n (target+1) _ _ (by omega) target hlt]
      exact Function.update_self target _ m
    | succ i =>
      have hstep : ∀ a : UInt32, a+UInt32.ofNat (i+1) = a+1+UInt32.ofNat i := by
        intro a
        rw [UInt32.ofNat_add, UInt32.add_comm (UInt32.ofNat i), ← UInt32.add_assoc]
        rfl
      have hne : source+1+UInt32.ofNat i ≠ target := by
        intro he
        have hi' : (UInt32.ofNat i).toNat = i := UInt32.toNat_ofNat_of_lt (show i < 2^32 by omega)
        have hn := congrArg UInt32.toNat he
        rw [UInt32.toNat_add, hs', hi', Nat.mod_eq_of_lt (by omega)] at hn
        omega
      rw [copyStored, hstep target, hstep source, ih (target+1) (source+1) _ (by omega) (by omega)
        (by omega) i (by omega)]
      exact Function.update_of_ne hne _ m

/-- The only format is 1, and its data is stored as it is. -/
def storedImages : Callees Ram where
  getenvYesno _ := true
  bootStartLmb m := m
  bootGetKernel _ m := (0, m)
  genimgGetFormat _ _ := .legacy
  imageGetType _ _ := ihTypeKernel
  imageGetComp _ _ := 0
  imageGetOs _ _ := ihOsLinux
  imageGetImageEnd _ _ := 0
  imageGetLoad _ _ := 0
  imageGetEp _ := 0
  fitImageGetType m := (true, m)
  fitImageGetComp m := (true, m)
  fitImageGetOs m := (true, m)
  fitGetEnd _ := 0
  fitImageGetLoad m := (true, m)
  fitImageGetEntry m := (true, m)
  bootGetRamdisk _ m := (false, m)
  bootGetFdt _ m := (false, m)
  setWorkingFdtAddr _ m := m
  memmoveWd := memmoveWd
  decompress comp := if comp = 1 then
      some fun target source len m => (some len, copyStored len.toNat target source m)
    else none
  flushCache _ _ m := m
  lmbReserve _ _ m := m
  bootRamdiskHigh _ _ m := (0, m)
  setenvInitrd _ m := m
  bootFdtAddMemRsvRegions _ m := m
  bootRelocateFdt m := (0, m)
  prebootOs m := m
  bootOs _ := none

def stored : Expansion := fun _ data => some data

theorem toNat_add_of_le (a n : UInt32) (h : a ≤ a+n) :
    a.toNat+n.toNat < 2^32 ∧ (a+n).toNat = a.toNat+n.toNat := by
  rw [UInt32.le_iff_toNat_le, UInt32.toNat_add] at h
  rw [UInt32.toNat_add]
  have := a.toNat_lt
  have := n.toNat_lt
  omega

theorem Apart.sides (a s n : UInt32) (ha : a ≤ a+n) (hs : s ≤ s+n) (h : Apart a (a+n) s (s+n))
    (hn : 0 < n.toNat) :
    a.toNat+n.toNat ≤ s.toNat ∨ s.toNat+n.toNat ≤ a.toNat := by
  have hea := toNat_add_of_le a n ha
  have hes := toNat_add_of_le s n hs
  by_contra hc
  rcases Nat.le_total a.toNat s.toNat with hle | hle
  · apply h s
    simp only [UInt32.le_iff_toNat_le, UInt32.lt_iff_toNat_lt]
    omega
  · apply h a
    simp only [UInt32.le_iff_toNat_le, UInt32.lt_iff_toNat_lt]
    omega

theorem storedImages_honest : Honest storedImages id stored := by
  constructor
  case move => exact fun _ _ _ _ => rfl
  case flush => exact fun _ _ _ => rfl
  case unpack =>
    intro comp unpack hu target source len w n w' hrun ht hs hap
    have hcomp : comp = 1 := by
      by_contra hne
      simp [storedImages, hne] at hu
    subst hcomp
    obtain rfl : (fun target source len m => (some len, copyStored len.toNat target source m)) =
      unpack := Option.some.inj hu
    obtain ⟨rfl, rfl⟩ : len = n ∧ copyStored len.toNat target source w = w' := by
      simpa using hrun
    rw [stored, Option.some.injEq]
    apply List.map_congr_left
    intro i hi
    have hi := List.mem_range.mp hi
    exact (copyStored_apart len.toNat target source w (toNat_add_of_le target len ht).1
      (toNat_add_of_le source len hs).1 (Apart.sides target source len ht hs hap (by omega)) i
      hi).symm

/-- Bytes that tell their addresses. -/
def numbered : Ram := fun a => a.toUInt8

def packedImage : ImageInfo := ⟨16, 32, 20, 8, 64, 1, ihTypeKernel, ihOsLinux⟩

theorem load_complete_packed :
    let r := bootmLoadOs storedImages packedImage numbered
    r.1 = 0 ∧ ¬InPlace packedImage ∧ Apart 64 r.2.1 16 32 ∧
      bytesAt r.2.2 64 (r.2.1-64) = [20, 21, 22, 23, 24, 25, 26, 27] := by
  have h := load_complete storedImages id stored storedImages_honest packedImage numbered
    (copyStored 8 64 20 numbered) 72 rfl (by decide)
    (fun _ => ⟨by decide, by decide, by decide⟩)
  rcases h with ⟨h, -⟩ | ⟨hp, ha, hk⟩
  · exact absurd h.1 (by decide)
  · exact ⟨rfl, hp, ha, (Option.some.inj hk).symm⟩

/-- A header in front of an image in place is taken for the image; a packed image that reaches
out of its blob is overwritten while it is read. -/
theorem header_taken_for_image :
    (let os : ImageInfo := ⟨16, 32, 20, 12, 16, 0, ihTypeKernel, ihOsLinux⟩
      let r := bootmLoadOs storedImages os numbered
      r.1 = 0 ∧ Holds os ∧ os.load ≤ r.2.1 ∧
        kernelOf stored os numbered ≠ some (bytesAt r.2.2 os.load (r.2.1-os.load))) ∧
    (let os : ImageInfo := ⟨16, 24, 20, 12, 24, 1, ihTypeKernel, ihOsLinux⟩
      let r := bootmLoadOs storedImages os numbered
      r.1 = 0 ∧ ¬InPlace os ∧ os.load ≤ r.2.1 ∧
        kernelOf stored os numbered ≠ some (bytesAt r.2.2 os.load (r.2.1-os.load))) := by
  refine ⟨⟨rfl, ⟨by decide, by decide, by decide⟩, by decide, by decide⟩,
    rfl, ?_, by decide, by decide⟩
  rintro ⟨h, -⟩
  exact absurd h (by decide)

end UBoot.Bootm
