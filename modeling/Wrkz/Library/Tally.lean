import Mathlib

/-!
A table of how often each key occurs. A key that does not occur has no entry.
-/

set_option autoImplicit false

namespace Library

variable {κ : Type} [DecidableEq κ]

abbrev Tally (κ : Type) := AList (fun _ : κ => Nat)

namespace Tally

def at' (t : Tally κ) (k : κ) : Nat := (t.lookup k).getD 0

/-- `*entry(k).or_insert(0) += 1`. -/
def add (t : Tally κ) (k : κ) : Tally κ := t.insert k (t.at' k + 1)

def remove (t : Tally κ) (k : κ) : Tally κ :=
  match t.lookup k with
  | none => t
  | some n => if n - 1 = 0 then t.erase k else t.insert k (n-1)

def Counts (t : Tally κ) (xs : List κ) : Prop :=
  ∀ k, t.lookup k = if xs.count k = 0 then none else some (xs.count k)

variable {t : Tally κ} {xs ys : List κ} {k : κ}

theorem counts_empty : Counts (∅ : Tally κ) [] := by
  intro k
  simp

theorem Counts.at'_eq (h : t.Counts xs) (k : κ) : t.at' k = xs.count k := by
  rw [at', h k]
  split
  · simp [*]
  · rfl

theorem Counts.perm (h : t.Counts xs) (hp : xs.Perm ys) : t.Counts ys := by
  intro k
  rw [h k, hp.count_eq k]

theorem Counts.add (h : t.Counts xs) (k : κ) : (t.add k).Counts (k :: xs) := by
  intro j
  by_cases hj : j = k
  · subst hj
    rw [Tally.add, AList.lookup_insert, List.count_cons_self, if_neg (by omega), h.at'_eq]
  · rw [Tally.add, AList.lookup_insert_ne hj, h j, List.count_cons_of_ne (Ne.symm hj)]

theorem Counts.remove (h : t.Counts (k :: xs)) : (t.remove k).Counts xs := by
  intro j
  have hk : t.lookup k = some (xs.count k + 1) := by
    rw [h k, List.count_cons_self, if_neg (by omega)]
  have hother (hj : j ≠ k) : t.lookup j = if xs.count j = 0 then none else some (xs.count j) := by
    rw [h j, List.count_cons_of_ne (Ne.symm hj)]
  unfold Tally.remove
  simp only [hk, Nat.add_sub_cancel]
  by_cases hzero : xs.count k = 0
  · rw [if_pos hzero]
    by_cases hj : j = k
    · subst hj
      rw [AList.lookup_erase, if_pos hzero]
    · rw [AList.lookup_erase_ne hj, hother hj]
  · rw [if_neg hzero]
    by_cases hj : j = k
    · subst hj
      rw [AList.lookup_insert, if_neg hzero]
    · rw [AList.lookup_insert_ne hj, hother hj]

end Tally

end Library
