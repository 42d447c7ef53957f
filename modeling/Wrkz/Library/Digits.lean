import Mathlib

/-!
The lowest digits of a number to a base, the lowest first. With as many digits as the
number has, `Nat.ofDigits` is the inverse.
-/

set_option autoImplicit false

namespace Library

def lowDigits (base : Nat) : Nat → Nat → List Nat
  | 0, _ => []
  | k+1, n => n % base :: lowDigits base k (n / base)

variable {base : Nat}

@[simp] theorem lowDigits_length (k n : Nat) : (lowDigits base k n).length = k := by
  induction k generalizing n with
  | zero => rfl
  | succ k ih => simp [lowDigits, ih]

theorem lowDigits_lt (hbase : 0 < base) (k n : Nat) : ∀ d ∈ lowDigits base k n, d < base := by
  induction k generalizing n with
  | zero => simp [lowDigits]
  | succ k ih => exact List.forall_mem_cons.2 ⟨Nat.mod_lt _ hbase,ih _⟩

theorem lowDigits_add_mul {d : Nat} (hd : d < base) (k n : Nat) :
    lowDigits base (k+1) (d + base * n) = d :: lowDigits base k n := by
  have hpos : 0 < base := by omega
  rw [lowDigits, Nat.add_mul_mod_self_left, Nat.mod_eq_of_lt hd, Nat.add_mul_div_left _ _ hpos,
    Nat.div_eq_of_lt hd, Nat.zero_add]

theorem ofDigits_lowDigits {k n : Nat} (h : n < base ^ k) :
    Nat.ofDigits base (lowDigits base k n) = n := by
  induction k generalizing n with
  | zero => simpa [lowDigits, eq_comm] using h
  | succ k ih =>
    have hrest : n / base < base ^ k := Nat.div_lt_of_lt_mul (by rwa [pow_succ'] at h)
    rw [lowDigits, Nat.ofDigits_cons, ih hrest]
    exact Nat.mod_add_div n base

theorem lowDigits_ofDigits {ds : List Nat} (h : ∀ d ∈ ds, d < base) :
    lowDigits base ds.length (Nat.ofDigits base ds) = ds := by
  induction ds with
  | nil => rfl
  | cons d ds ih =>
    obtain ⟨hd,hds⟩ := List.forall_mem_cons.1 h
    rw [List.length_cons, Nat.ofDigits_cons, lowDigits_add_mul hd, ih hds]

theorem take_lowDigits {k m n : Nat} (h : k ≤ m) :
    (lowDigits base m n).take k = lowDigits base k n := by
  induction k generalizing m n with
  | zero => rfl
  | succ k ih =>
    obtain ⟨m,rfl⟩ : ∃ m', m = m'+1 := ⟨m-1,by omega⟩
    rw [lowDigits, List.take_succ_cons, ih (by omega), lowDigits]

end Library
