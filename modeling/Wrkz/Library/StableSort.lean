import Mathlib

/-!
Sorting that keeps the order of equal elements. A list that is kept sorted, with
equal elements in the order of their numbers, is what a stable sort makes of the
same elements in the order of their numbers.
-/

set_option autoImplicit false

namespace Library

variable {α : Type}

variable {l : List α} {a b : α}

theorem not_both_orders (hl : l.Nodup) (hab : [a,b].Sublist l) (hba : [b,a].Sublist l) : False := by
  induction l with
  | nil => cases hab
  | cons c l ih =>
    have hc := List.nodup_cons.1 hl
    cases hab with
    | cons _ hab =>
      cases hba with
      | cons _ hba => exact ih hc.2 hab hba
      | cons_cons _ hba => exact hc.1 (hab.subset (by simp))
    | cons_cons _ hab =>
      cases hba with
      | cons _ hba => exact hc.1 (hba.subset (by simp))
      | cons_cons _ hba => exact hc.1 (hba.subset (by simp))

/-- Of two elements of a list in the order of their numbers, the one with the lower
number comes first. -/
theorem pair_sublist_of_numbered {number : α → Nat} (hl : l.Pairwise fun a b => number a < number b)
    (ha : a ∈ l) (hb : b ∈ l) (hlt : number a < number b) : [a,b].Sublist l := by
  induction l with
  | nil => cases ha
  | cons c l ih =>
    have hc := List.pairwise_cons.1 hl
    cases ha with
    | head =>
      cases hb with
      | head => omega
      | tail _ hb => exact .cons_cons _ (List.singleton_sublist.2 hb)
    | tail _ ha =>
      cases hb with
      | head =>
        have := hc.1 a ha
        omega
      | tail _ hb => exact .cons _ (ih hc.2 ha hb)

/-- `a` before `b`, and not only because the order leaves them equal. -/
def StablyBefore (le : α → α → Bool) (number : α → Nat) (a b : α) : Prop :=
  le a b = true ∧ (le b a = true → number a < number b)

variable {le : α → α → Bool} {number : α → Nat}

variable (htrans : ∀ a b c, le a b = true → le b c = true → le a c = true)
  (htotal : ∀ a b, (le a b || le b a) = true)
include htrans htotal

theorem mergeSort_stablyBefore (hl : l.Pairwise fun a b => number a < number b) :
    (l.mergeSort le).Pairwise (StablyBefore le number) := by
  have hnodup : l.Nodup := hl.imp fun {a b} h heq => by
    subst heq
    exact Nat.lt_irrefl _ h
  have hsorted := List.pairwise_mergeSort htrans htotal l
  rw [List.pairwise_iff_forall_sublist] at hsorted ⊢
  intro a b hab
  refine ⟨hsorted hab,fun hle => ?_⟩
  have hmem : ∀ x, x ∈ [a,b] → x ∈ l := fun x hx => List.mem_mergeSort.1 (hab.subset hx)
  have hsort : (l.mergeSort le).Nodup := (List.mergeSort_perm l le).nodup_iff.2 hnodup
  by_contra hge
  rcases Nat.lt_or_eq_of_le (Nat.le_of_not_lt hge) with hlt | heq
  · have hba := pair_sublist_of_numbered hl (hmem b (by simp)) (hmem a (by simp)) hlt
    exact not_both_orders hsort hab (List.pair_sublist_mergeSort htrans htotal hle hba)
  · have hnumbers : (l.map number).Nodup :=
      List.pairwise_map.2 (hl.imp fun h => Nat.ne_of_lt h)
    have hsame : a = b :=
      List.inj_on_of_nodup_map hnumbers (hmem a (by simp)) (hmem b (by simp)) heq.symm
    subst hsame
    exact not_both_orders hsort hab hab

/-- The stable sort of numbered elements is the one arrangement of them in which each
is stably before the next ones. -/
theorem eq_mergeSort_of_stablyBefore {l s : List α} (hl : l.Pairwise fun a b => number a < number b)
    (hperm : s.Perm l) (hs : s.Pairwise (StablyBefore le number)) : s = l.mergeSort le := by
  refine List.Perm.eq_of_pairwise ?_ hs (mergeSort_stablyBefore htrans htotal hl)
    (hperm.trans (List.mergeSort_perm l le).symm)
  intro a b _ _ hab hba
  have h1 := hab.2 hba.1
  have h2 := hba.2 hab.1
  omega

end Library
