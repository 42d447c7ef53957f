import Mathlib

/-!
Searching a list for a run of elements, and writing over a part of a list.
-/

set_option autoImplicit false

namespace Library

variable {α : Type}

/-- The `n` elements from position `i` on, or as many as there are. -/
def window (xs : List α) (i n : Nat) : List α := (xs.drop i).take n

/-- `w` written over the elements from `offset` on. -/
def overwrite (xs : List α) (offset : Nat) (w : List α) : List α :=
  xs.take offset ++ w ++ xs.drop (offset+w.length)

theorem window_append {a b c : List α} : window (a ++ (b ++ c)) a.length b.length = b := by
  simp [window]

theorem overwrite_append {a b c w : List α} (h : w.length = b.length) :
    overwrite (a ++ (b ++ c)) a.length w = a ++ (w ++ c) := by
  rw [overwrite, h, List.take_left, List.append_assoc, ← List.drop_drop, List.drop_left,
    List.drop_left]

theorem window_lt {haystack needle : List α} {i : Nat} (hne : needle ≠ [])
    (h : window haystack i needle.length = needle) : i + needle.length ≤ haystack.length := by
  have hlen := congrArg List.length h
  have hpos := List.length_pos_iff.2 hne
  simp only [window, List.length_take, List.length_drop] at hlen
  omega

variable [DecidableEq α]

/-- The first position at which `needle` stands. -/
def findSubslice (haystack needle : List α) : Option Nat :=
  if needle = [] ∨ haystack.length < needle.length then none
  else (List.range (haystack.length-needle.length+1)).find? fun i =>
    window haystack i needle.length = needle

/-- In how many places `needle` stands. -/
def occurrences (haystack needle : List α) : Nat :=
  (List.range haystack.length).countP fun i => window haystack i needle.length = needle

variable {haystack needle : List α} (hne : needle ≠ []) (h : occurrences haystack needle = 1)
include hne h

theorem window_inj_of_occurrences {i j : Nat} (hi : window haystack i needle.length = needle)
    (hj : window haystack j needle.length = needle) : i = j := by
  have hpos := List.length_pos_iff.2 hne
  have hi' := window_lt hne hi
  have hj' := window_lt hne hj
  rw [occurrences, List.countP_eq_length_filter, List.length_eq_one_iff] at h
  obtain ⟨k,hk⟩ := h
  have hmem (m : Nat) (hm : m < haystack.length) (hw : window haystack m needle.length = needle) :
      m = k := by
    have : m ∈ (List.range haystack.length).filter fun i =>
        window haystack i needle.length = needle := by simp [hm, hw]
    simpa [hk] using this
  rw [hmem i (by omega) hi, hmem j (by omega) hj]

theorem findSubslice_of_occurrences {i : Nat} (hi : window haystack i needle.length = needle) :
    findSubslice haystack needle = some i := by
  have hlt := window_lt hne hi
  rw [findSubslice, if_neg (by simp only [hne, false_or]; omega), List.find?_range_eq_some]
  refine ⟨by simpa using hi,by simp; omega,fun j hj => ?_⟩
  simp only [Bool.not_eq_true', decide_eq_false_iff_not]
  intro hw
  have := window_inj_of_occurrences hne h hw hi
  omega

end Library
