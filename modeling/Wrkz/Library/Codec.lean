import Wrkz.Library.Reading

/-!
Readers of a stream and the words they take off it: what is taken stands in a relation
to the value returned, and is a word the reader gives the value back for.
-/

set_option autoImplicit false

namespace Library

universe u v

variable {γ α β : Type u} {ε : Type v}

/-- Whatever a successful run takes off the stream stands in `W` to its value. -/
def Takes (r : StateT (List γ) (Except ε) α) (W : α → List γ → Prop) : Prop :=
  ∀ s a t, r s = .ok (a,t) → ∃ w, s = w ++ t ∧ W a w

namespace Takes

variable {r : StateT (List γ) (Except ε) α} {f : α → StateT (List γ) (Except ε) β}
  {W W' : α → List γ → Prop} {V : β → List γ → Prop} {P : α → Prop}

theorem mono (h : Takes r W) (hw : ∀ a w, W a w → W' a w) : Takes r W' := by
  intro s a t hr
  obtain ⟨w,hs,ha⟩ := h s a t hr
  exact ⟨w,hs,hw a w ha⟩

theorem and_yields (h : Takes r W) (hp : Yields r P) : Takes r fun a w => W a w ∧ P a := by
  intro s a t hr
  obtain ⟨w,hs,ha⟩ := h s a t hr
  exact ⟨w,hs,ha,hp s a t hr⟩

theorem pure {a : α} (h : W a []) : Takes (Pure.pure a : StateT (List γ) (Except ε) α) W := by
  intro s b t hr
  have heq : (a,s) = (b,t) := Except.ok.inj hr
  cases heq
  exact ⟨[],rfl,h⟩

theorem bind (h : Takes r W) (hf : ∀ a w, W a w → Takes (f a) fun b w' => V b (w ++ w')) :
    Takes (r >>= f) V := by
  intro s b t hr
  obtain ⟨a,s',hrun,hfa⟩ := Yields.run_bind_ok hr
  obtain ⟨w,hs,ha⟩ := h s a s' hrun
  obtain ⟨w',hs',hb⟩ := hf a w ha s' b t hfa
  exact ⟨w ++ w',by rw [hs, hs', List.append_assoc],hb⟩

theorem ite {c : Prop} [Decidable c] {r' : StateT (List γ) (Except ε) α} (h : c → Takes r W)
    (h' : ¬ c → Takes r' W) : Takes (if c then r else r') W := by
  by_cases hc : c
  · rw [if_pos hc]
    exact h hc
  · rw [if_neg hc]
    exact h' hc

theorem fail {e : ε} : Takes (fun _ => .error e : StateT (List γ) (Except ε) α) W :=
  fun _ _ _ hr => by cases hr

end Takes

theorem bind_run {σ : Type u} {r : StateT σ (Except ε) α} {f : α → StateT σ (Except ε) β}
    {s t : σ} {a : α} (h : r s = .ok (a,t)) : (r >>= f) s = f a t := by
  simp [Bind.bind, StateT.bind, Except.bind, h]

end Library
