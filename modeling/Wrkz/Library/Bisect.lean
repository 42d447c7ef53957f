import Wrkz.Library.Fallible

/-!
Bisection and linear search with a test that may fail to answer. The test need not be
monotone: bisection ends at a crossing, a place where it turns from false to true.
-/

set_option autoImplicit false

namespace Library

variable {ε : Type}

theorem ok_bind {α β : Type} (a : α) (f : α → Except ε β) : (Except.ok a >>= f) = f a := rfl

/-- Halve `low..high` until it is empty. -/
def bisect (p : Nat → Except ε Bool) : Nat → Nat → Nat → Except ε Nat
  | 0, low, _ => .ok low
  | fuel+1, low, high =>
    if low < high then do
      let mid := low + (high-low) / 2
      let past ← p mid
      if past then bisect p fuel low mid else bisect p fuel (mid+1) high
    else .ok low

/-- `c` is where the test turns, the ends of `0..n` counting as false and true. -/
structure Crossing (q : Nat → Bool) (n c : Nat) : Prop where
  le : c ≤ n
  below : ∀ i, c = i+1 → q i = false
  above : c < n → q c = true

variable {q : Nat → Bool} {p : Nat → Except ε Bool}

theorem bisect_crossing {n fuel low high : Nat}
    (hp : ∀ i < n, p i = .ok (q i)) (hfuel : high - low ≤ fuel) (hle : low ≤ high) (hn : high ≤ n)
    (hlow : ∀ i, low = i+1 → q i = false) (hhigh : high < n → q high = true) :
    ∃ c, bisect p fuel low high = .ok c ∧ Crossing q n c := by
  induction fuel generalizing low high with
  | zero =>
    have heq : low = high := by omega
    subst heq
    exact ⟨low,rfl,hn,hlow,hhigh⟩
  | succ fuel ih =>
    unfold bisect
    by_cases hlt : low < high
    · simp only [if_pos hlt, hp _ (show low + (high-low) / 2 < n by omega)]
      change ∃ c, (if q (low + (high-low) / 2) = true then _ else _) = _ ∧ _
      cases hmid : q (low + (high-low) / 2) with
      | true =>
        rw [if_pos rfl]
        exact ih (by omega) (by omega) (by omega) hlow fun _ => hmid
      | false =>
        rw [if_neg (by simp)]
        refine ih (by omega) (by omega) hn (fun i hi => ?_) hhigh
        rw [show i = low + (high-low) / 2 by omega]
        exact hmid
    · rw [if_neg hlt]
      have heq : low = high := by omega
      subst heq
      exact ⟨low,rfl,hn,hlow,hhigh⟩

/-- The first of the given places that passes. -/
def scan (p : Nat → Except ε Bool) : List Nat → Except ε (Option Nat)
  | [] => .ok none
  | i :: rest => do
    let hit ← p i
    if hit then pure (some i) else scan p rest

theorem scan_eq {l : List Nat} (hp : ∀ i ∈ l, p i = .ok (q i)) : scan p l = .ok (l.find? q) := by
  induction l with
  | nil => rfl
  | cons i rest ih =>
    have htail := ih fun j hj => hp j (by simp [hj])
    unfold scan
    rw [hp i (by simp), List.find?_cons]
    cases hi : q i with
    | true => rfl
    | false => exact htail

/-- The lowest place below `n` that passes. -/
def lowest (q : Nat → Bool) (n : Nat) : Option Nat := (List.range n).find? q

theorem lowest_eq_some {n i : Nat} :
    lowest q n = some i ↔ i < n ∧ q i = true ∧ ∀ j < i, q j = false := by
  rw [lowest, List.find?_range_eq_some, List.mem_range]
  simp only [Bool.not_eq_true']
  tauto

theorem lowest_eq_none {n : Nat} : lowest q n = none ↔ ∀ i < n, q i = false := by
  simp [lowest]

end Library
