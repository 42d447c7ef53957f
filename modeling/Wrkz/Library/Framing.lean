import Mathlib

/-!
Codes whose words show where they end: two streams that start with the words of two
values and agree start with the same value and go on in the same way.
-/

set_option autoImplicit false

namespace Library

universe u v w

variable {α : Type u} {β : Type v} {γ : Type w}

/-- The word of a value with the property can be read off the front of any stream. -/
def Delimited (enc : α → List γ) (P : α → Prop) : Prop :=
  ∀ a b, P a → P b → ∀ s t, enc a ++ s = enc b ++ t → a = b ∧ s = t

namespace Delimited

variable {enc : α → List γ} {P : α → Prop}

theorem inj (h : Delimited enc P) {a b : α} (ha : P a) (hb : P b) (heq : enc a = enc b) : a = b :=
  (h a b ha hb [] [] (by rw [heq])).1

theorem of_length {n : Nat} (hlen : ∀ a, P a → (enc a).length = n)
    (hinj : ∀ a b, P a → P b → enc a = enc b → a = b) : Delimited enc P := by
  intro a b ha hb s t h
  have hlengths : (enc a).length = (enc b).length := by rw [hlen a ha, hlen b hb]
  obtain ⟨hword,hrest⟩ := List.append_inj h hlengths
  exact ⟨hinj a b ha hb hword,hrest⟩

theorem flatMap (h : Delimited enc P) :
    ∀ xs ys : List α, xs.length = ys.length → (∀ x ∈ xs, P x) → (∀ y ∈ ys, P y) →
      ∀ s t, xs.flatMap enc ++ s = ys.flatMap enc ++ t → xs = ys ∧ s = t
  | [], [], _, _, _, s, t, heq => ⟨rfl,heq⟩
  | [], _ :: _, hlen, _, _, _, _, _ => by simp at hlen
  | _ :: _, [], hlen, _, _, _, _, _ => by simp at hlen
  | x :: xs, y :: ys, hlen, hx, hy, s, t, heq => by
    rw [List.flatMap_cons, List.flatMap_cons, List.append_assoc, List.append_assoc] at heq
    obtain ⟨hxy,hrest⟩ := h x y (hx x (by simp)) (hy y (by simp)) _ _ heq
    obtain ⟨htail,hst⟩ := flatMap h xs ys (by simpa using hlen) (fun z hz => hx z (by simp [hz]))
      (fun z hz => hy z (by simp [hz])) s t hrest
    exact ⟨by rw [hxy, htail],hst⟩

theorem counted {len : Nat → List γ} {Q : Nat → Prop} (hlen : Delimited len Q)
    (h : Delimited enc P) :
    Delimited (fun xs : List α => len xs.length ++ xs.flatMap enc)
      (fun xs => Q xs.length ∧ ∀ x ∈ xs, P x) := by
  intro xs ys hxs hys s t heq
  rw [List.append_assoc, List.append_assoc] at heq
  obtain ⟨hlengths,hrest⟩ := hlen _ _ hxs.1 hys.1 _ _ heq
  exact h.flatMap xs ys hlengths hxs.2 hys.2 s t hrest

end Delimited

end Library
