import Mathlib

/-!
Fisher-Yates over any source of numbers. Whatever the numbers are, the result holds
the elements it was given.
-/

set_option autoImplicit false

namespace Library

variable {α γ : Type}

def swap (l : List α) (i j : Nat) : List α :=
  if h : i < l.length ∧ j < l.length then (l.set i l[j]).set j l[i] else l

theorem swap_perm (l : List α) (i j : Nat) : (swap l i j).Perm l := by
  unfold swap
  split
  case isTrue h => exact List.set_set_perm h.1 h.2
  case isFalse => exact .refl l

/-- From the last element down to the second, each changes places with one of those
up to it. -/
def shuffleLoop (next : γ → Nat × γ) : Nat → γ → List α → List α × γ
  | 0, g, l => (l,g)
  | i+1, g, l =>
    let (x,g) := next g
    shuffleLoop next i g (swap l (i+1) (x % (i+2)))

theorem shuffleLoop_perm (next : γ → Nat × γ) (i : Nat) (g : γ) (l : List α) :
    (shuffleLoop next i g l).1.Perm l := by
  induction i generalizing g l with
  | zero => exact .refl l
  | succ i ih => exact (ih _ _).trans (swap_perm _ _ _)

def shuffle (next : γ → Nat × γ) (g : γ) (l : List α) : List α × γ :=
  shuffleLoop next (l.length - 1) g l

theorem shuffle_perm (next : γ → Nat × γ) (g : γ) (l : List α) :
    (shuffle next g l).1.Perm l := shuffleLoop_perm _ _ _ _

end Library
