import Wrkz.Library.Stateful

/-!
Computations whose every run moves the state along a relation, whichever way it ends.
With a reflexive and transitive relation the sequence of two such computations is one.
-/

set_option autoImplicit false

namespace Library

universe u

variable {ε σ α β : Type u}

def StepsBy (R : σ → σ → Prop) (m : EStateM ε σ α) : Prop := ∀ s, R s (finalState (m s))

namespace StepsBy

variable {R : σ → σ → Prop} {m : EStateM ε σ α} {f : α → EStateM ε σ β}

theorem bind (htrans : ∀ s t u, R s t → R t u → R s u) (hm : StepsBy R m)
    (hf : ∀ a, StepsBy R (f a)) : StepsBy R (m >>= f) := by
  intro s
  have hs := hm s
  cases hrun : m s with
  | ok a t =>
    rw [hrun] at hs
    rw [run_bind_of_ok hrun]
    exact htrans _ _ _ hs (hf a t)
  | error e t =>
    rw [hrun] at hs
    rw [run_bind_of_error hrun]
    exact hs

theorem get_bind {f : σ → EStateM ε σ β} (hf : ∀ s, R s (finalState (f s s))) :
    StepsBy R ((get : EStateM ε σ σ) >>= f) := fun s => hf s

theorem pure (hrefl : ∀ s, R s s) (a : α) : StepsBy R (Pure.pure a : EStateM ε σ α) :=
  fun s => hrefl s

theorem modify {g : σ → σ} (hg : ∀ s, R s (g s)) :
    StepsBy R (modify g : EStateM ε σ PUnit) := fun s => hg s

theorem throw (hrefl : ∀ s, R s s) (e : ε) : StepsBy R (throw e : EStateM ε σ α) :=
  fun s => hrefl s

end StepsBy

end Library
