import Mathlib

/-!
Records kept in a window behind the end of a growing sequence. When entry `n` is
added its own record is made, if it is admitted, and the record `d` places below
goes; without a window none ever goes. A sequence is also cut back, and what went
while it was longer does not come back with it.
-/

set_option autoImplicit false

namespace Library

namespace Window

/-- The record `i` goes while the sequence grows from `n` to `m` entries. -/
def Fallen (window : Option Nat) (n m i : Nat) : Prop :=
  ∃ d, window = some d ∧ n ≤ i + d ∧ i + d < m

/-- What is held after the sequence has grown from `n` to `m` entries. -/
def Grows (window : Option Nat) (admits : Nat → Prop) (n m : Nat) (held held' : Nat → Prop) :
    Prop :=
  ∀ i, held' i ↔ ¬ Fallen window n m i ∧ (n ≤ i ∧ i < m ∧ admits i ∨ held i)

/-- What is held after the sequence has been cut back to `n` entries. -/
def Cut (n : Nat) (held held' : Nat → Prop) : Prop :=
  ∀ i, held' i ↔ i < n ∧ held i

/-- Of `n` entries, none is held that has left the window. -/
def Trimmed (window : Option Nat) (n : Nat) (held : Nat → Prop) : Prop :=
  ∀ i d, window = some d → i + d < n → ¬ held i

section

variable {window : Option Nat} {admits held held₁ held₂ held₃ held₄ : Nat → Prop}
  {n m k i : Nat}

theorem Fallen.below (hpos : ∀ d, window = some d → 0 < d) (h : Fallen window n m i) : i < m := by
  obtain ⟨d,hd,_,hlt⟩ := h
  have := hpos d hd
  omega

theorem Fallen.append (hnm : n ≤ m) (hmk : m ≤ k) :
    Fallen window n k i ↔ Fallen window n m i ∨ Fallen window m k i := by
  constructor
  · intro h
    obtain ⟨d,hd,hn,hk⟩ := h
    by_cases hm : i + d < m
    · exact .inl ⟨d,hd,hn,hm⟩
    · exact .inr ⟨d,hd,by omega,hk⟩
  · intro h
    rcases h with ⟨d,hd,hn,hm⟩ | ⟨d,hd,hm,hk⟩
    · exact ⟨d,hd,hn,by omega⟩
    · exact ⟨d,hd,by omega,hk⟩

theorem not_fallen_self : ¬ Fallen window n n i := by
  intro h
  obtain ⟨d,_,hn,hlt⟩ := h
  omega

namespace Grows

theorem refl : Grows window admits n n held held := by
  intro i
  have hnone : ¬ (n ≤ i ∧ i < n ∧ admits i) := by omega
  simp [not_fallen_self, hnone]

theorem trans (hpos : ∀ d, window = some d → 0 < d) (hnm : n ≤ m) (hmk : m ≤ k)
    (h : Grows window admits n m held held₁) (h' : Grows window admits m k held₁ held₂) :
    Grows window admits n k held held₂ := by
  intro i
  rw [h' i, h i, Fallen.append hnm hmk, not_or]
  constructor
  · intro hi
    obtain ⟨hlate,hnew | ⟨hearly,hnew | hold⟩⟩ := hi
    · -- what is made in the second part is above all that fell in the first
      have hearly : ¬ Fallen window n m i := fun hf => by
        have := hf.below hpos
        omega
      exact ⟨⟨hearly,hlate⟩,.inl ⟨by omega,hnew.2.1,hnew.2.2⟩⟩
    · exact ⟨⟨hearly,hlate⟩,.inl ⟨hnew.1,by omega,hnew.2.2⟩⟩
    · exact ⟨⟨hearly,hlate⟩,.inr hold⟩
  · intro hi
    obtain ⟨⟨hearly,hlate⟩,hnew | hold⟩ := hi
    · by_cases hm : i < m
      · exact ⟨hlate,.inr ⟨hearly,.inl ⟨hnew.1,hm,hnew.2.2⟩⟩⟩
      · exact ⟨hlate,.inl ⟨by omega,hnew.2.1,hnew.2.2⟩⟩
    · exact ⟨hlate,.inr ⟨hearly,.inr hold⟩⟩

theorem trimmed (hpos : ∀ d, window = some d → 0 < d) (h : Grows window admits n m held held₁)
    (ht : Trimmed window n held) : Trimmed window m held₁ := by
  intro i d hd hlt hi
  obtain ⟨hfallen,hcases⟩ := (h i).1 hi
  have hn : i + d < n := by
    by_contra hn
    exact hfallen ⟨d,hd,by omega,hlt⟩
  rcases hcases with hnew | hold
  · have := hpos d hd
    omega
  · exact ht i d hd hn hold

end Grows

theorem Cut.trimmed (h : Cut n held held₁) (hnm : n ≤ m) (ht : Trimmed window m held) :
    Trimmed window n held₁ := by
  intro i d hd hlt hi
  exact ht i d hd (by omega) ((h i).1 hi).2

/-- Below the cut, growing again to no more than before loses nothing more. -/
theorem held_below_iff (ht : Trimmed window m held) (hcut : Cut n held held₁)
    (hup : Grows window admits n k held₁ held₂) (hback : Cut n held₂ held₃)
    (hagain : Grows window admits n m held₃ held₄) (hk : window = none ∨ k ≤ m) (hi : i < n) :
    held₄ i ↔ held i := by
  rw [hagain i, hback i, hup i, hcut i]
  have hnew : ∀ j, ¬ (n ≤ i ∧ i < j ∧ admits i) := by omega
  simp only [hnew, hi, true_and, false_or]
  constructor
  · intro h
    exact h.2.2
  · intro h
    have hfallen : ∀ j, window = none ∨ j ≤ m → ¬ Fallen window n j i := by
      intro j hj hf
      obtain ⟨d,hd,_,hlt⟩ := hf
      rcases hj with hnone | hj
      · rw [hnone] at hd
        cases hd
      · exact ht i d hd (by omega) h
    exact ⟨hfallen m (.inr (Nat.le_refl _)),hfallen k hk,h⟩

theorem held_iff (ht : Trimmed window m held) (hadmits : ∀ i, held i → admits i)
    (hbound : ∀ i, held i → i < m) (hall : ∀ i, n ≤ i → i < m → held i)
    (hcut : Cut n held held₁) (hup : Grows window admits n k held₁ held₂)
    (hback : Cut n held₂ held₃) (hagain : Grows window admits n m held₃ held₄)
    (hk : window = none ∨ k ≤ m) : held₄ i ↔ held i := by
  by_cases hi : i < n
  · exact held_below_iff ht hcut hup hback hagain hk hi
  · rw [hagain i, hback i]
    constructor
    · intro h
      rcases h.2 with hnew | hold
      · exact hall i hnew.1 hnew.2.1
      · omega
    · intro h
      have hm := hbound i h
      refine ⟨fun hf => ?_,.inl ⟨by omega,hm,hadmits i h⟩⟩
      obtain ⟨d,hd,_,hlt⟩ := hf
      exact ht i d hd hlt h

end

end Window

end Library
