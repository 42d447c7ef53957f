import Mathlib

/-!
Computations that may be refused. A check refuses with an error or lets the
computation go on; the lemmas below take an accepted computation apart, one
check at a time.
-/

set_option autoImplicit false

namespace Library

universe u v

variable {ε : Type u} {α β : Type v}

/-- Refuse with `e` when `p` holds. -/
def refuseIf (p : Prop) [Decidable p] (e : ε) : Except ε PUnit.{v+1} :=
  if p then .error e else .ok ⟨⟩

variable {f : α → Except ε β} {e : ε} {p : Prop}

@[simp] theorem refuseIf_ok_iff [Decidable p] {u : PUnit.{v+1}} : refuseIf p e = .ok u ↔ ¬ p := by
  unfold refuseIf
  split <;> simp_all

theorem refuseIf_error_iff [Decidable p] {e e' : ε} :
    refuseIf.{u,v} p e = .error e' ↔ p ∧ e = e' := by
  unfold refuseIf
  split <;> simp_all

/-- The value of an optional reading, or a refusal with `e` when there is none. -/
def orRefuse (x : Option α) (e : ε) : Except ε α :=
  match x with
  | some a => .ok a
  | none => .error e

@[simp] theorem orRefuse_ok_iff {x : Option α} {a : α} : orRefuse x e = .ok a ↔ x = some a := by
  cases x <;> simp [orRefuse]

@[simp] theorem bind_ok_iff {x : Except ε α} {b : β} :
    (x >>= f) = .ok b ↔ ∃ a, x = .ok a ∧ f a = .ok b := by
  cases x with
  | error e => simp [bind, Except.bind]
  | ok a => simp [bind, Except.bind]

theorem bind_error_iff {x : Except ε α} :
    (x >>= f) = .error e ↔ x = .error e ∨ ∃ a, x = .ok a ∧ f a = .error e := by
  cases x with
  | error e => simp [bind, Except.bind]
  | ok a => simp [bind, Except.bind]

@[simp] theorem pure_ok_iff {a b : α} : (pure a : Except ε α) = .ok b ↔ a = b := by
  simp [pure, Except.pure]

theorem mapError_ok_iff {ε ε' α : Type} {x : Except ε α} {f : ε → ε'} {a : α} :
    x.mapError f = .ok a ↔ x = .ok a := by
  cases x <;> simp [Except.mapError]

section

variable {ε α β : Type} {f : α → Except ε β} {xs : List α} {ys : List β} (h : xs.mapM f = .ok ys)
include h

theorem mapM_ok : List.Forall₂ (fun x y => x ∈ xs ∧ f x = .ok y) xs ys := by
  induction xs generalizing ys with
  | nil =>
    simp only [List.mapM_nil, pure_ok_iff] at h
    exact h ▸ .nil
  | cons x xs ih =>
    simp only [List.mapM_cons, bind_ok_iff, pure_ok_iff] at h
    obtain ⟨y,hy,rest,hrest,rfl⟩ := h
    exact .cons ⟨by simp,hy⟩ ((ih hrest).imp fun z w hz => ⟨by simp [hz.1],hz.2⟩)

theorem mem_of_mapM_ok {y : β} (hy : y ∈ ys) : ∃ x ∈ xs, f x = .ok y := by
  obtain ⟨i,hi,rfl⟩ := List.getElem_of_mem hy
  have hlen := (mapM_ok h).length_eq
  exact ⟨xs[i],(mapM_ok h).get (by omega) hi⟩

end

theorem toOption_eq_some_iff {ε α : Type*} {x : Except ε α} {a : α} :
    x.toOption = some a ↔ x = .ok a := by
  cases x <;> simp [Except.toOption]

def RefusesOnly (E : ε → Prop) (x : Except ε α) : Prop := ∀ e, x = .error e → E e

namespace RefusesOnly

variable {E : ε → Prop} {x : Except ε α} {f : α → Except ε β}

theorem ok (a : α) : RefusesOnly E (.ok a) := by
  intro e h
  cases h

theorem of_ok {a : α} (h : x = .ok a) : RefusesOnly E x := by
  rw [h]
  exact ok a

theorem error {e : ε} (he : E e) : RefusesOnly E (.error e : Except ε α) := by
  intro e' h
  cases h
  exact he

theorem bind (hx : RefusesOnly E x) (hf : ∀ a, x = .ok a → RefusesOnly E (f a)) :
    RefusesOnly E (x >>= f) := by
  intro e h
  rcases bind_error_iff.1 h with hxe | ⟨a,ha,hfa⟩
  · exact hx e hxe
  · exact hf a ha e hfa

theorem refuseIf {p : Prop} [Decidable p] {e : ε} (he : E e) :
    RefusesOnly E (Library.refuseIf.{u,v} p e) := by
  intro e' h
  obtain ⟨_,rfl⟩ := refuseIf_error_iff.1 h
  exact he

theorem orRefuse {y : Option α} {e : ε} (he : E e) : RefusesOnly E (Library.orRefuse y e) := by
  cases y with
  | some a => exact ok a
  | none => exact error he

theorem ite {c : Prop} [Decidable c] {y : Except ε α} (hx : c → RefusesOnly E x)
    (hy : ¬ c → RefusesOnly E y) : RefusesOnly E (if c then x else y) := by
  by_cases hc : c
  · rw [if_pos hc]
    exact hx hc
  · rw [if_neg hc]
    exact hy hc

end RefusesOnly

/-- A computation that may be refused and keeps a log of what it met before that. -/
def Logged (ω : Type u) (ε : Type u) (α : Type v) := List ω × Except ε α

namespace Logged

variable {ω : Type u}

def lift (x : Except ε α) : Logged ω ε α := ([],x)

def log (entries : List ω) : Logged ω ε PUnit.{v+1} := (entries,.ok ⟨⟩)

instance : Monad (Logged.{u,v} ω ε) where
  pure a := ([],.ok a)
  bind x f :=
    match x.2 with
    | .error e => (x.1,.error e)
    | .ok a => (x.1 ++ (f a).1, (f a).2)

variable {x : Logged ω ε α} {f : α → Logged ω ε β} {b : β}

theorem bind_snd_ok_iff : (x >>= f).2 = .ok b ↔ ∃ a, x.2 = .ok a ∧ (f a).2 = .ok b := by
  obtain ⟨entries,r⟩ := x
  cases r with
  | error e => simp [bind]
  | ok a => simp [bind]

theorem bind_fst_of_ok {a : α} (h : x.2 = .ok a) : (x >>= f).1 = x.1 ++ (f a).1 := by
  obtain ⟨entries,r⟩ := x
  have h' : r = .ok a := h
  subst h'
  rfl

/-- What follows an accepted step may be exchanged for what ends the same way. -/
theorem bind_congr_of_ok {f g : α → Logged ω ε β} (h : (x >>= f).2 = .ok b)
    (hfg : ∀ a, x.2 = .ok a → (f a).2 = .ok b → g a = f a) : (x >>= g) = (x >>= f) := by
  obtain ⟨a,ha,hf⟩ := bind_snd_ok_iff.1 h
  obtain ⟨entries,r⟩ := x
  have ha' : r = .ok a := ha
  subst ha'
  change (entries ++ (g a).1, (g a).2) = (entries ++ (f a).1, (f a).2)
  rw [hfg a rfl hf]

@[simp] theorem lift_fst (x : Except ε α) : (lift x : Logged ω ε α).1 = [] := rfl

@[simp] theorem lift_snd (x : Except ε α) : (lift x : Logged ω ε α).2 = x := rfl

@[simp] theorem pure_fst (a : α) : (pure a : Logged ω ε α).1 = [] := rfl

@[simp] theorem pure_snd (a : α) : (pure a : Logged ω ε α).2 = .ok a := rfl

@[simp] theorem log_fst (entries : List ω) : (log.{u,v} entries : Logged ω ε PUnit).1 = entries := rfl

@[simp] theorem log_snd (entries : List ω) :
    (log.{u,v} entries : Logged ω ε PUnit).2 = .ok ⟨⟩ := rfl

end Logged

end Library
