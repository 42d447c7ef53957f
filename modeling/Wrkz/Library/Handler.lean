import Wrkz.Library.Stateful

/-!
Rules for the steps of a handler: reading the state, changing it, giving up.
-/

set_option autoImplicit false

namespace Library

universe u

variable {ε σ α β : Type u}

namespace Ensures

variable {s : σ} {Q : α → σ → Prop} {R : β → σ → Prop} {E : ε → σ → Prop}

theorem get_bind {f : σ → EStateM ε σ α} (h : Ensures (f s) s Q E) :
    Ensures (MonadState.get >>= f) s Q E := h

variable {f : β → EStateM ε σ α} {g : σ → σ}

theorem modify_bind {f : PUnit → EStateM ε σ α} (h : Ensures (f ⟨⟩) (g s) Q E) :
    Ensures (modify g >>= f) s Q E := h

theorem modifyGet_bind {g : σ → β × σ}
    (h : Ensures (f (g s).1) (g s).2 Q E) : Ensures (modifyGet g >>= f) s Q E := h

theorem pure_bind {b : β} (h : Ensures (f b) s Q E) :
    Ensures ((Pure.pure b : EStateM ε σ β) >>= f) s Q E := h

theorem of_modify {Q : PUnit.{u+1} → σ → Prop} (h : Q ⟨⟩ (g s)) :
    Ensures (modify g : EStateM ε σ PUnit) s Q E := h

theorem of_throw {e : ε} (h : E e s) : Ensures (MonadExcept.throw e : EStateM ε σ α) s Q E := h

end Ensures

end Library
