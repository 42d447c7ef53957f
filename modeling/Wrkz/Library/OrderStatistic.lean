import Mathlib

/-!
The element at an index of a sorted list, bounded by counting: few elements above a
value keep it from being exceeded, few below keep it from being undercut.
-/

set_option autoImplicit false

namespace Library

open List

variable {l : List Nat} {k x : Nat}

theorem mergeSort_getElem?_isSome (hk : k < l.length) : ∃ y, l.mergeSort[k]? = some y := by
  have hlen : k < l.mergeSort.length := by
    rw [length_mergeSort]
    exact hk
  exact ⟨_,getElem?_eq_getElem hlen⟩

theorem mergeSort_pairwise (l : List Nat) : l.mergeSort.Pairwise (· ≤ ·) := by
  have hsorted : l.mergeSort.Pairwise fun a b => decide (a ≤ b) = true :=
    pairwise_mergeSort
      (fun a b c hab hbc => by
        simp only [decide_eq_true_eq] at hab hbc ⊢
        omega)
      (fun a b => by
        simp only [Bool.or_eq_true, decide_eq_true_eq]
        omega) l
  exact hsorted.imp of_decide_eq_true

theorem mergeSort_le_of_countP_lt {b : Nat} (hx : l.mergeSort[k]? = some x)
    (hfew : l.countP (fun y => b < y) + k < l.length) : x ≤ b := by
  by_contra hlt
  obtain ⟨hk,heq⟩ := List.getElem?_eq_some_iff.1 hx
  have hdrop : (l.mergeSort.drop k).countP (fun y => b < y) = (l.mergeSort.drop k).length := by
    rw [List.countP_eq_length]
    intro y hy
    obtain ⟨i,hi,rfl⟩ := getElem_of_mem hy
    have hki : k + i < l.mergeSort.length := by
      rw [length_drop] at hi
      omega
    rw [getElem_drop]
    have hle : l.mergeSort[k] ≤ l.mergeSort[k+i] := by
      rcases Nat.eq_zero_or_pos i with rfl | hpos
      · exact le_rfl
      · exact pairwise_iff_getElem.1 (mergeSort_pairwise l) _ _ _ _ (by omega)
    simp only [decide_eq_true_eq]
    omega
  have hsub := (drop_sublist k l.mergeSort).countP_le (p := fun y => decide (b < y))
  rw [hdrop, length_drop, length_mergeSort, (mergeSort_perm l _).countP_eq] at hsub
  rw [length_mergeSort] at hk
  omega

theorem le_mergeSort_of_countP_le {a : Nat} (hx : l.mergeSort[k]? = some x)
    (hfew : l.countP (fun y => y < a) ≤ k) : a ≤ x := by
  by_contra hlt
  obtain ⟨hk,heq⟩ := List.getElem?_eq_some_iff.1 hx
  have htake : (l.mergeSort.take (k+1)).countP (fun y => y < a) =
      (l.mergeSort.take (k+1)).length := by
    rw [countP_eq_length]
    intro y hy
    obtain ⟨i,hi,rfl⟩ := getElem_of_mem hy
    have hik : i < k + 1 ∧ i < l.mergeSort.length := by
      rw [length_take] at hi
      omega
    obtain ⟨hik,hil⟩ := hik
    rw [getElem_take]
    have hle : l.mergeSort[i] ≤ l.mergeSort[k] := by
      rcases Nat.eq_or_lt_of_le (Nat.le_of_lt_succ hik) with rfl | hlt
      · exact le_rfl
      · exact pairwise_iff_getElem.1 (mergeSort_pairwise l) _ _ _ _ hlt
    simp only [decide_eq_true_eq]
    omega
  have hsub := (take_sublist (k+1) l.mergeSort).countP_le (p := fun y => decide (y < a))
  rw [htake, length_take, (mergeSort_perm l _).countP_eq] at hsub
  omega

end Library
