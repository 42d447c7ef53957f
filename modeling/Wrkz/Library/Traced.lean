import Wrkz.Library.Following

/-!
Computations that keep a log beside their state. The log does not steer them:
without it a traced computation runs as the plain one it follows.
-/

set_option autoImplicit false

namespace Library

universe u

variable {ε σ τ α β : Type u}

abbrev Traced (ε σ τ α : Type u) := EStateM ε (σ × List τ) α

namespace Traced

def lift (m : EStateM ε σ α) : Traced ε σ τ α := fun x =>
  match m x.1 with
  | .ok a t => .ok a (t,x.2)
  | .error e t => .error e (t,x.2)

variable {m : EStateM ε σ α} {s t : σ}

theorem run_lift_of_ok {a : α} (h : m s = .ok a t) (log : List τ) :
    lift m (s,log) = .ok a (t,log) := by
  simp [lift, h]

theorem run_lift_of_error {e : ε} (h : m s = .error e t)
    (log : List τ) : lift m (s,log) = .error e (t,log) := by
  simp [lift, h]

def note (entry : σ → τ) : Traced ε σ τ PUnit := fun x => .ok ⟨⟩ (x.1,x.2 ++ [entry x.1])

def forget : EStateM.Result ε (σ × List τ) α → EStateM.Result ε σ α
  | .ok a x => .ok a x.1
  | .error e x => .error e x.1

/-- Without its log `m'` runs as `m`. -/
def Follows (m' : Traced ε σ τ α) (m : EStateM ε σ α) : Prop := ∀ x, forget (m' x) = m x.1

theorem finalState_forget (r : EStateM.Result ε (σ × List τ) α) :
    finalState (forget r) = (finalState r).1 := by
  cases r <;> rfl

namespace Follows

variable {m' : Traced ε σ τ α} {m : EStateM ε σ α} {f' : α → Traced ε σ τ β} {f : α → EStateM ε σ β}

theorem finalState_eq (h : Follows m' m) (x : σ × List τ) :
    (finalState (m' x)).1 = finalState (m x.1) := by
  rw [← h x, finalState_forget]

theorem pure (a : α) : Follows (Pure.pure a : Traced ε σ τ α) (Pure.pure a) := fun _ => rfl

theorem lift (m : EStateM ε σ α) : Follows (Traced.lift m : Traced ε σ τ α) m := by
  intro x
  unfold Traced.lift
  cases m x.1 <;> rfl

theorem bind (h : Follows m' m) (hf : ∀ a, Follows (f' a) (f a)) :
    Follows (m' >>= f') (m >>= f) := by
  intro x
  have hx := h x
  cases hrun : m' x with
  | ok a y =>
    rw [hrun] at hx
    rw [run_bind_of_ok hrun, run_bind_of_ok hx.symm]
    exact hf a y
  | error e y =>
    rw [hrun] at hx
    rw [run_bind_of_error hrun, run_bind_of_error hx.symm]
    rfl

theorem note_bind {entry : σ → τ} (h : Follows m' m) : Follows (note entry >>= fun _ => m') m :=
  fun x => h (x.1,x.2 ++ [entry x.1])

theorem ite {p : Prop} [Decidable p] {n' : Traced ε σ τ α} {n : EStateM ε σ α} (h : Follows m' m)
    (hn : Follows n' n) : Follows (if p then m' else n') (if p then m else n) := by
  split
  · exact h
  · exact hn

end Follows

theorem ensures_lift {x : σ × List τ} {Q : α → σ → Prop} {E : ε → σ → Prop}
    (h : Ensures m x.1 Q E) : Ensures (lift m : Traced ε σ τ α) x
      (fun a y => Q a y.1 ∧ y.2 = x.2) (fun e y => E e y.1 ∧ y.2 = x.2) := by
  unfold Ensures at h
  cases hrun : m x.1 with
  | ok a t =>
    rw [hrun] at h
    exact Ensures.of_ok (run_lift_of_ok hrun x.2) ⟨h,rfl⟩
  | error e t =>
    rw [hrun] at h
    exact Ensures.of_error (run_lift_of_error hrun x.2) ⟨h,rfl⟩

/-! What is logged -/

/-- The state has `I`, every entry of the log has `P`. -/
def Clean (I : σ → Prop) (P : τ → Prop) (x : σ × List τ) : Prop := I x.1 ∧ ∀ e ∈ x.2, P e

/-- Every run keeps `K`, whichever way it ends. -/
def Keeps (K : σ → Prop) (m : EStateM ε σ α) : Prop := StepsBy (fun s t => K s → K t) m

namespace Keeps

variable {I : σ → Prop} {P : τ → Prop} {K : σ → Prop} {m : EStateM ε σ α} {f : α → EStateM ε σ β}

theorem bind (hm : Keeps K m) (hf : ∀ a, Keeps K (f a)) : Keeps K (m >>= f) :=
  StepsBy.bind (fun _ _ _ h h' hs => h' (h hs)) hm hf

theorem bind_of {Q : α → Prop} (hm : Keeps K m) (hq : ∀ s a t, K s → m s = .ok a t → Q a)
    (hf : ∀ a, Q a → Keeps K (f a)) : Keeps K (m >>= f) := by
  intro s hs
  have hstep := hm s hs
  cases hrun : m s with
  | ok a t =>
    rw [hrun] at hstep
    rw [run_bind_of_ok hrun]
    exact hf a (hq s a t hs hrun) t hstep
  | error e t =>
    rw [hrun] at hstep
    rw [run_bind_of_error hrun]
    exact hstep

theorem ensures (h : Keeps K m) {s : σ} (hs : K s) : Ensures m s (fun _ => K) (fun _ => K) := by
  have hstep := h s hs
  unfold Ensures
  cases hrun : m s with
  | ok a t =>
    rw [hrun] at hstep
    exact hstep
  | error e t =>
    rw [hrun] at hstep
    exact hstep

theorem pure (a : α) : Keeps K (Pure.pure a : EStateM ε σ α) := fun _ h => h

theorem lift_of {K : σ × List τ → Prop} (h : ∀ log, Keeps (fun s => K (s,log)) m) :
    Keeps K (Traced.lift m : Traced ε σ τ α) := by
  intro x hx
  have hstep := h x.2 x.1 hx
  unfold Traced.lift
  cases hrun : m x.1 with
  | ok a t =>
    rw [hrun] at hstep
    exact hstep
  | error e t =>
    rw [hrun] at hstep
    exact hstep

theorem lift (h : Keeps I m) : Keeps (Clean I P) (Traced.lift m : Traced ε σ τ α) :=
  .lift_of fun _ s hs => ⟨h s hs.1,hs.2⟩

theorem note {entry : σ → τ} (h : ∀ s, I s → P (entry s)) :
    Keeps (Clean I P) (Traced.note entry : Traced ε σ τ PUnit) := by
  intro x hx
  refine ⟨hx.1,fun e he => ?_⟩
  rcases List.mem_append.1 he with he | he
  · exact hx.2 e he
  · rw [List.mem_singleton.1 he]
    exact h x.1 hx.1

end Keeps

end Traced

end Library
