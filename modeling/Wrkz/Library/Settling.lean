import Wrkz.Library.Fallible

/-!
Postponed checks. A computation logs checks instead of running them; settling the log
reports the first one that fails, and the computation's own refusal only after all of
them. Settling goes through the computation step by step, so it does what running each
check on the spot does.
-/

set_option autoImplicit false

namespace Library

section

variable {ε ε' α β : Type} (g : ε → ε')

theorem mapError_bind (x : Except ε α) (f : α → Except ε β) :
    (x >>= f).mapError g = x.mapError g >>= fun a => (f a).mapError g := by
  cases x <;> rfl

theorem mapError_refuseIf {p : Prop} [Decidable p] (e : ε) :
    (refuseIf p e : Except ε PUnit.{1}).mapError g = refuseIf p (g e) := by
  unfold refuseIf
  split <;> rfl

theorem mapError_orRefuse (x : Option α) (e : ε) :
    (orRefuse x e).mapError g = orRefuse x (g e) := by
  cases x <;> rfl

theorem mapError_mapError {ε'' : Type} (f : ε' → ε'') (x : Except ε α) :
    (x.mapError g).mapError f = x.mapError (f ∘ g) := by
  cases x <;> rfl

end

namespace Logged

variable {ω ε ε' α β : Type}

def mapError (f : ε → ε') (x : Logged ω ε α) : Logged ω ε' α := (x.1,x.2.mapError f)

theorem bind_snd (x : Logged ω ε α) (f : α → Logged ω ε β) :
    (x >>= f).2 = x.2 >>= fun a => (f a).2 := by
  obtain ⟨entries,r⟩ := x
  cases r <;> rfl

theorem bind_mapError (f : ε → ε') (x : Logged ω ε α) (k : α → Logged ω ε β) :
    (x >>= k).mapError f = x.mapError f >>= fun a => (k a).mapError f := by
  obtain ⟨entries,r⟩ := x
  cases r <;> rfl

theorem mapError_id (x : Logged ω ε α) : x.mapError id = x := by
  obtain ⟨entries,r⟩ := x
  cases r <;> rfl

theorem mapError_ite {c : Prop} [Decidable c] (f : ε → ε') (x y : Logged ω ε α) :
    (if c then x else y).mapError f = if c then x.mapError f else y.mapError f := by
  split <;> rfl

/-- The first entry that fails, with the error it stands for, or else the verdict. -/
def settle (fails : ω → Option ε) (x : Logged ω ε α) : Except ε α :=
  (x.1.findSome? fails).elim x.2 .error

section

variable {fails : ω → Option ε}

@[simp] theorem settle_lift (x : Except ε α) : (lift x : Logged ω ε α).settle fails = x := rfl

@[simp] theorem settle_pure (a : α) : (pure a : Logged ω ε α).settle fails = .ok a := rfl

theorem settle_log (c : ω) :
    (log [c] : Logged ω ε PUnit).settle fails = (fails c).elim (.ok ⟨⟩) .error := by
  unfold settle log
  cases hc : fails c <;> simp [hc]

theorem settle_bind (x : Logged ω ε α) (f : α → Logged ω ε β) :
    (x >>= f).settle fails = x.settle fails >>= fun a => (f a).settle fails := by
  obtain ⟨entries,r⟩ := x
  cases r with
  | error e => cases hl : entries.findSome? fails <;> simp [settle, bind, Except.bind, hl]
  | ok a => cases hl : entries.findSome? fails <;> simp [settle, bind, Except.bind, hl]

theorem settle_ite {c : Prop} [Decidable c] (x y : Logged ω ε α) :
    (if c then x else y).settle fails = if c then x.settle fails else y.settle fails := by
  split <;> rfl

theorem settle_mapError (f : ε → ε') (x : Logged ω ε α) :
    (x.mapError f).settle (fun c => (fails c).map f) = (x.settle fails).mapError f := by
  have hfind : x.1.findSome? (fun c => (fails c).map f) = (x.1.findSome? fails).map f := by
    induction x.1 with
    | nil => rfl
    | cons c cs ih => cases hc : fails c <;> simp [hc, ih]
  unfold settle mapError
  rw [hfind]
  cases x.1.findSome? fails <;> rfl

end

/-- Every entry that is logged has the property. -/
def Logs (P : ω → Prop) (x : Logged ω ε α) : Prop := ∀ c ∈ x.1, P c

namespace Logs

variable {P : ω → Prop}

theorem lift (x : Except ε α) : Logs P (Logged.lift x : Logged ω ε α) := by simp [Logs]

theorem pure (a : α) : Logs P (Pure.pure a : Logged ω ε α) := by simp [Logs]

theorem log {c : ω} (h : P c) : Logs P (Logged.log [c] : Logged ω ε PUnit) := by
  simpa [Logs] using h

theorem bind {x : Logged ω ε α} {f : α → Logged ω ε β} (hx : Logs P x) (hf : ∀ a, Logs P (f a)) :
    Logs P (x >>= f) := by
  obtain ⟨entries,r⟩ := x
  cases r with
  | error e => exact hx
  | ok a =>
    intro c hc
    rcases List.mem_append.1 hc with hc | hc
    · exact hx c hc
    · exact hf a c hc

theorem ite {c : Prop} [Decidable c] {x y : Logged ω ε α} (hx : c → Logs P x)
    (hy : ¬ c → Logs P y) : Logs P (if c then x else y) := by
  by_cases hc : c
  · rw [if_pos hc]
    exact hx hc
  · rw [if_neg hc]
    exact hy hc

theorem mapError {x : Logged ω ε α} (hx : Logs P x) (f : ε → ε') : Logs P (x.mapError f) := hx

end Logs

end Logged

end Library
