import Mathlib

/-!
Properties of every element of a list together with what comes before it.
-/

set_option autoImplicit false

namespace Library

variable {α : Type*} {P : List α → α → Prop} {l : List α} {a : α}

def Along (P : List α → α → Prop) (l : List α) : Prop :=
  ∀ before ∈ l.inits, ∀ a ∈ l[before.length]?, P before a

instance [∀ before a, Decidable (P before a)] (l : List α) : Decidable (Along P l) :=
  inferInstanceAs (Decidable (∀ before ∈ l.inits, ∀ a ∈ l[before.length]?, P before a))

theorem along_nil : Along P [] := by
  intro before _ a ha
  simp at ha

theorem along_concat : Along P (l ++ [a]) ↔ Along P l ∧ P l a := by
  constructor
  · intro h
    constructor
    · intro before hbefore b hb
      have hinits := (List.mem_inits _ _).1 hbefore
      have hlt := (List.getElem?_eq_some_iff.1 hb).1
      refine h before ((List.mem_inits _ _).2 (hinits.trans (List.prefix_append l [a]))) b ?_
      rw [List.getElem?_append_left hlt]
      exact hb
    · exact h l ((List.mem_inits _ _).2 (List.prefix_append l [a])) a (by simp)
  · intro h before hbefore b hb
    have hinits := (List.mem_inits _ _).1 hbefore
    have hlt := (List.getElem?_eq_some_iff.1 hb).1
    simp only [List.length_append, List.length_singleton] at hlt
    rcases Nat.lt_or_ge before.length l.length with hshort | hlong
    · rw [List.getElem?_append_left hshort] at hb
      have hpre : before <+: l := List.prefix_of_prefix_length_le hinits (List.prefix_append l [a])
        (by omega)
      exact h.1 before ((List.mem_inits _ _).2 hpre) b hb
    · have heq : before = l := by
        have hpre : before <+: l := List.prefix_of_prefix_length_le hinits
          (List.prefix_append l [a]) (by omega)
        exact hpre.eq_of_length (by omega)
      subst heq
      simp only [List.getElem?_concat_length, Option.mem_def, Option.some.injEq] at hb
      subst hb
      exact h.2

theorem Along.of_append {l' : List α} (h : Along P (l ++ l')) : Along P l := by
  induction l' using List.reverseRecOn with
  | nil => rwa [List.append_nil] at h
  | append_singleton l' a ih =>
    rw [← List.append_assoc] at h
    exact ih (along_concat.1 h).1

theorem Along.getElem? (h : Along P l) {i : Nat} (hi : l[i]? = some a) : P (l.take i) a := by
  have hlt := (List.getElem?_eq_some_iff.1 hi).1
  refine h (l.take i) ((List.mem_inits _ _).2 (List.take_prefix i l)) a ?_
  rw [List.length_take, Nat.min_eq_left (by omega)]
  exact hi

theorem Along.mem (h : Along P l) (ha : a ∈ l) : ∃ before, before ⊆ l ∧ P before a := by
  obtain ⟨i,hi⟩ := List.getElem?_of_mem ha
  exact ⟨l.take i,List.take_subset i l,h.getElem? hi⟩

end Library
