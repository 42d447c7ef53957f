import Mathlib

/-!
Readers that consume a state and may fail, and the rules for what holds of every
value a reader yields.
-/

set_option autoImplicit false

namespace Library

universe u v

variable {σ α β : Type u} {ε : Type v}

def Yields (r : StateT σ (Except ε) α) (P : α → Prop) : Prop :=
  ∀ s a t, r s = .ok (a,t) → P a

namespace Yields

variable {r : StateT σ (Except ε) α} {f : α → StateT σ (Except ε) β} {P P' : α → Prop}
  {Q : β → Prop}

theorem run_bind_ok {s t : σ} {b : β} (h : (r >>= f) s = .ok (b,t)) :
    ∃ a s', r s = .ok (a,s') ∧ f a s' = .ok (b,t) := by
  cases hrun : r s with
  | error e => simp [Bind.bind, StateT.bind, Except.bind, hrun] at h
  | ok at' => exact ⟨_,_,rfl,by simpa [Bind.bind, StateT.bind, Except.bind, hrun] using h⟩

theorem any : Yields r fun _ => True := fun _ _ _ _ => trivial

theorem pure {a : α} (h : P a) : Yields (Pure.pure a : StateT σ (Except ε) α) P := by
  intro s b t hr
  have heq : (a,s) = (b,t) := Except.ok.inj hr
  cases heq
  exact h

theorem bind (h : Yields r P) (hf : ∀ a, P a → Yields (f a) Q) : Yields (r >>= f) Q := by
  intro s b t hr
  obtain ⟨a,s',hrun,hfa⟩ := run_bind_ok hr
  exact hf a (h s a s' hrun) s' b t hfa

theorem ite {c : Prop} [Decidable c] {r' : StateT σ (Except ε) α} (h : c → Yields r P)
    (h' : ¬ c → Yields r' P) : Yields (if c then r else r') P := by
  by_cases hc : c
  · rw [if_pos hc]
    exact h hc
  · rw [if_neg hc]
    exact h' hc

theorem fail {e : ε} : Yields (fun _ => .error e : StateT σ (Except ε) α) P :=
  fun _ _ _ hr => by cases hr

end Yields

end Library
