import Mathlib

/-!
Drawing without replacement from `0..n` with a sparse map: a position without an entry
holds its own index. A draw closes its gap with the last position and forgets that one.
-/

set_option autoImplicit false

namespace Library

abbrev SparseArray := AList (fun _ : Nat => Nat)

namespace SparseArray

/-- What position `i` holds. -/
def at' (m : SparseArray) (i : Nat) : Nat := (m.lookup i).getD i

/-- The value of `last` moved to position `i`, and `last` forgotten. -/
def moveLast (m : SparseArray) (i last : Nat) : SparseArray := (m.insert i (m.at' last)).erase last

/-- The first `n` positions. -/
def toList (m : SparseArray) (n : Nat) : List Nat := (List.range n).map m.at'

@[simp] theorem at'_empty (i : Nat) : at' ∅ i = i := rfl

theorem toList_empty (n : Nat) : toList ∅ n = List.range n := by
  have hid : at' ∅ = id := funext at'_empty
  rw [toList, hid, List.map_id]

theorem length_toList (m : SparseArray) (n : Nat) : (m.toList n).length = n := by
  simp [toList]

variable {m : SparseArray} {i last : Nat}

theorem at'_moveLast {i last j : Nat} (h : j ≠ last) :
    (m.moveLast i last).at' j = if j = i then m.at' last else m.at' j := by
  unfold moveLast
  conv_lhs => unfold at'
  rw [AList.lookup_erase_ne h]
  by_cases hij : j = i
  · subst hij
    rw [AList.lookup_insert, if_pos rfl]
    rfl
  · rw [AList.lookup_insert_ne hij, if_neg hij]
    rfl

theorem toList_moveLast : (m.moveLast i last).toList last = (m.toList last).set i (m.at' last) := by
  refine List.ext_getElem (by simp [toList]) fun j hj _ => ?_
  rw [length_toList] at hj
  rw [List.getElem_set]
  simp only [toList, List.getElem_map, List.getElem_range]
  rw [at'_moveLast (by omega)]
  by_cases hij : j = i
  · rw [if_pos hij, if_pos hij.symm]
  · rw [if_neg hij, if_neg (Ne.symm hij)]

theorem moveLast_perm (h : i ≤ last) :
    (m.at' i :: (m.moveLast i last).toList last).Perm (m.toList (last+1)) := by
  have hsplit : m.toList (last+1) = m.toList last ++ [m.at' last] := by
    simp [toList, List.range_succ]
  rw [hsplit, toList_moveLast]
  rcases Nat.lt_or_eq_of_le h with hlt | rfl
  · have hi : i < (m.toList last).length := by rwa [length_toList]
    have hget : (m.toList last)[i] = m.at' i := by simp [toList]
    have hset := List.set_perm_cons_eraseIdx hi (m.at' last)
    have herase := List.getElem_cons_eraseIdx_perm hi
    rw [hget] at herase
    calc m.at' i :: (m.toList last).set i (m.at' last)
        |>.Perm (m.at' i :: m.at' last :: (m.toList last).eraseIdx i) := hset.cons _
      _ |>.Perm (m.at' last :: m.at' i :: (m.toList last).eraseIdx i) := .swap _ _ _
      _ |>.Perm (m.at' last :: m.toList last) := herase.cons _
      _ |>.Perm (m.toList last ++ [m.at' last]) := (List.perm_append_singleton _ _).symm
  · rw [List.set_eq_of_length_le (by rw [length_toList])]
    exact (List.perm_append_singleton _ _).symm

end SparseArray

end Library
