import Mathlib

/-!
Stateful computations that keep their state when they fail: how a sequence of
steps runs, and rules for what holds of the state whichever way a computation
ends.
-/

set_option autoImplicit false

namespace Library

universe u

variable {ε σ α β : Type u}

variable {f : α → EStateM ε σ β} {m : EStateM ε σ α} {s t : σ}

theorem run_bind_of_ok {a : α} (h : m s = .ok a t) : (m >>= f) s = f a t := by
  simp [bind, EStateM.bind, h]

theorem run_bind_of_error {e : ε} (h : m s = .error e t) : (m >>= f) s = .error e t := by
  simp [bind, EStateM.bind, h]

theorem run_get_bind (f : σ → EStateM ε σ β) (s : σ) :
    ((get : EStateM ε σ σ) >>= f) s = f s s := rfl

theorem run_set_bind (t : σ) (f : PUnit → EStateM ε σ β) (s : σ) :
    ((set t : EStateM ε σ PUnit) >>= f) s = f ⟨⟩ t := rfl

theorem run_modify_bind (g : σ → σ) (f : PUnit → EStateM ε σ β) (s : σ) :
    ((modify g : EStateM ε σ PUnit) >>= f) s = f ⟨⟩ (g s) := rfl

theorem run_pure (a : α) (s : σ) : (pure a : EStateM ε σ α) s = .ok a s := rfl

def finalState : EStateM.Result ε σ α → σ
  | .ok _ t => t
  | .error _ t => t

/-- Run on `s`, a computation ends in `Q` or fails in `E`. -/
def Ensures (m : EStateM ε σ α) (s : σ) (Q : α → σ → Prop) (E : ε → σ → Prop) : Prop :=
  match m s with
  | .ok a t => Q a t
  | .error e t => E e t

namespace Ensures

variable {m : EStateM ε σ α} {f : α → EStateM ε σ β} {s : σ} {Q Q' : α → σ → Prop}
  {R : β → σ → Prop} {E E' : ε → σ → Prop}

variable {t : σ} {a : α} {e : ε}

theorem of_ok (h : m s = .ok a t) (hq : Q a t) : Ensures m s Q E := by
  simp [Ensures, h, hq]

theorem of_error (h : m s = .error e t) (he : E e t) : Ensures m s Q E := by
  simp [Ensures, h, he]

theorem of_run {m' : EStateM ε σ α} (hrun : m s = m' t) (h : Ensures m' t Q E) :
    Ensures m s Q E := by
  unfold Ensures at h ⊢
  rw [hrun]
  exact h

section

variable (h : Ensures m s Q E)
include h

theorem of_ok_of_eq (heq : m s = .ok a t) : Q a t := by
  simpa [Ensures, heq] using h

theorem of_error_of_eq (heq : m s = .error e t) : E e t := by
  simpa [Ensures, heq] using h

theorem mono (hq : ∀ a t, Q a t → Q' a t) (he : ∀ e t, E e t → E' e t) : Ensures m s Q' E' := by
  unfold Ensures at h ⊢
  cases hm : m s with
  | ok a t => rw [hm] at h; exact hq a t h
  | error e t => rw [hm] at h; exact he e t h

theorem bind (hf : ∀ a t, Q a t → Ensures (f a) t R E) : Ensures (m >>= f) s R E := by
  unfold Ensures at h
  cases hm : m s with
  | ok a t =>
    rw [hm] at h
    have hrun := run_bind_of_ok (f := f) hm
    unfold Ensures
    rw [hrun]
    exact hf a t h
  | error e t =>
    rw [hm] at h
    exact of_error (run_bind_of_error hm) h

theorem with_run :
    Ensures m s (fun a t => m s = .ok a t ∧ Q a t) (fun e t => m s = .error e t ∧ E e t) := by
  unfold Ensures at h ⊢
  cases hm : m s with
  | ok a t =>
    rw [hm] at h
    exact ⟨rfl,h⟩
  | error e t =>
    rw [hm] at h
    exact ⟨rfl,h⟩

end

theorem finalState {P : σ → Prop} (h : Ensures m s (fun _ => P) (fun _ => P)) :
    P (finalState (m s)) := by
  unfold Ensures at h
  cases hm : m s with
  | ok a t => rw [hm] at h; exact h
  | error e t => rw [hm] at h; exact h

theorem pure (h : Q a s) : Ensures (Pure.pure a : EStateM ε σ α) s Q E :=
  of_ok rfl h

theorem exists_ok (h : Ensures m s Q fun _ _ => False) : ∃ a t, m s = .ok a t ∧ Q a t := by
  unfold Ensures at h
  cases hm : m s with
  | ok a t =>
    rw [hm] at h
    exact ⟨a,t,rfl,h⟩
  | error e t =>
    rw [hm] at h
    exact h.elim

theorem exists_ok_ok {n : EStateM ε σ β}
    (h : Ensures m s (fun a t => Q a t ∧ Ensures n t R fun _ _ => False) fun _ _ => False) :
    ∃ a t, m s = .ok a t ∧ Q a t ∧ ∃ b u, n t = .ok b u ∧ R b u := by
  obtain ⟨a,t,hrun,hq,hnext⟩ := h.exists_ok
  exact ⟨a,t,hrun,hq,hnext.exists_ok⟩

theorem exists_error (h : Ensures m s (fun _ _ => False) E) : ∃ e t, m s = .error e t ∧ E e t := by
  unfold Ensures at h
  cases hm : m s with
  | ok a t =>
    rw [hm] at h
    exact h.elim
  | error e t =>
    rw [hm] at h
    exact ⟨e,t,rfl,h⟩

/-- What one run ensures can be evaluated. -/
instance [∀ a t, Decidable (Q a t)] [∀ e t, Decidable (E e t)] : Decidable (Ensures m s Q E) :=
  match hm : m s with
  | .ok a t => decidable_of_iff (Q a t) (by simp [Ensures, hm])
  | .error e t => decidable_of_iff (E e t) (by simp [Ensures, hm])

end Ensures

end Library
