import Mathlib.Data.List.Sort

/-!
# Sorting by a key

Elements with one key keep their order when a list is sorted by insertion. A list that
is filled element by element is the sorted reversal, so what shares a key comes out
reversed.
-/

set_option autoImplicit false

namespace UBoot.StableSort

variable {α : Type} (key : α → ℕ)

def Le (a b : α) : Prop := key a ≤ key b

instance : DecidableRel (Le key) := fun a b => inferInstanceAs (Decidable (key a ≤ key b))

instance : Std.Total (Le key) := ⟨fun a b => Nat.le_total (key a) (key b)⟩

instance : IsTrans α (Le key) := ⟨fun _ _ _ h h' => Nat.le_trans h h'⟩

def sharing (k : ℕ) (l : List α) : List α := l.filter (key · = k)

theorem sharing_reverse (k : ℕ) (l : List α) :
    sharing key k l.reverse = (sharing key k l).reverse := List.filter_reverse

theorem sharing_sorted (k : ℕ) (l : List α) : (sharing key k l).Pairwise (Le key) := by
  apply List.Pairwise.imp_of_mem (R := fun _ _ => True)
  · intro a b ha hb _
    have ha' : key a = k := by simpa using (List.mem_filter.1 ha).2
    have hb' : key b = k := by simpa using (List.mem_filter.1 hb).2
    exact (ha'.trans hb'.symm).le
  · exact List.pairwise_of_forall (fun _ _ => trivial)

theorem sharing_sort (k : ℕ) (l : List α) :
    sharing key k (l.insertionSort (Le key)) = sharing key k l := by
  have hsub : (sharing key k l).Sublist (l.insertionSort (Le key)) :=
    List.sublist_insertionSort (sharing_sorted key k l) List.filter_sublist
  have hsub' : (sharing key k l).Sublist (sharing key k (l.insertionSort (Le key))) := by
    have h := hsub.filter (key · = k)
    rwa [sharing, List.filter_filter, show (fun a => decide (key a = k) && decide (key a = k)) =
      fun a => decide (key a = k) from funext fun a => Bool.and_self _] at h
  have hlen := ((List.perm_insertionSort (Le key) l).filter (key · = k)).length_eq
  exact (hsub'.eq_of_length hlen.symm).symm

theorem sharing_empty (l : List α) (h : ∀ k, sharing key k l = []) : l = [] := by
  cases l with
  | nil => rfl
  | cons a l =>
    have ha := h (key a)
    simp [sharing] at ha

/-- A sorted list is known by what shares each key. -/
theorem sorted_ext (l m : List α) (hl : l.Pairwise (Le key)) (hm : m.Pairwise (Le key))
    (h : ∀ k, sharing key k l = sharing key k m) : l = m := by
  induction l generalizing m with
  | nil => exact (sharing_empty key m (fun k => (h k).symm)).symm
  | cons a l ih =>
    cases m with
    | nil => exact sharing_empty key _ h
    | cons b m =>
      rw [List.pairwise_cons] at hl hm
      have hba : key b ≤ key a := by
        have hmem : a ∈ sharing key (key a) (b::m) := by
          rw [← h]
          simp [sharing]
        rcases List.mem_cons.1 (List.mem_filter.1 hmem).1 with rfl | hin
        · exact le_rfl
        · exact hm.1 a hin
      have hab : key a ≤ key b := by
        have hmem : b ∈ sharing key (key b) (a::l) := by
          rw [h]
          simp [sharing]
        rcases List.mem_cons.1 (List.mem_filter.1 hmem).1 with rfl | hin
        · exact le_rfl
        · exact hl.1 b hin
      have hk : key b = key a := le_antisymm hba hab
      have hhead := h (key a)
      simp only [sharing, List.filter_cons, hk, decide_true, if_true, List.cons.injEq] at hhead
      obtain ⟨rfl, -⟩ := hhead
      rw [ih m hl.2 hm.2]
      intro k
      have ht := h k
      simp only [sharing, List.filter_cons] at ht
      by_cases hkk : key a = k
      · simpa [hkk, sharing] using ht
      · simpa [hkk, sharing] using ht

theorem sort_reverse_iff (l : List α) (hl : l.Pairwise (Le key)) :
    l.reverse.insertionSort (Le key) = l ↔
      ∀ k, (sharing key k l).reverse = sharing key k l := by
  constructor
  · intro h k
    have hk := sharing_sort key k l.reverse
    rw [h, sharing_reverse] at hk
    exact hk.symm
  · intro h
    apply sorted_ext key _ _ (List.pairwise_insertionSort (Le key) _) hl
    intro k
    rw [sharing_sort, sharing_reverse, h]

end UBoot.StableSort
