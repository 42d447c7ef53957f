import Mathlib

/-!
Items of a heap that pass from owner to owner. An item is live from the moment it
is created until it is retired, and the references the owners hold name every
live item exactly once.
-/

set_option autoImplicit false

namespace Library

variable {α : Type} {live : α → Bool} {heap : List α} {held held' : List Nat} {r : Nat}

structure Owned (live : α → Bool) (heap : List α) (held : List Nat) : Prop where
  nodup : held.Nodup
  mem_iff : ∀ r, r ∈ held ↔ ∃ a, heap[r]? = some a ∧ live a = true

namespace Owned

theorem nothing : Owned live [] [] :=
  ⟨List.nodup_nil,by simp⟩

variable (h : Owned live heap held)
include h

theorem perm (hp : held.Perm held') : Owned live heap held' :=
  ⟨hp.nodup_iff.1 h.nodup,fun r => hp.mem_iff.symm.trans (h.mem_iff r)⟩

theorem lt_length (hr : r ∈ held) : r < heap.length := by
  obtain ⟨a,ha,-⟩ := (h.mem_iff r).1 hr
  exact (List.getElem?_eq_some_iff.1 ha).1

theorem create {a : α} (ha : live a = true) : Owned live (heap ++ [a]) (heap.length :: held) := by
  refine ⟨List.nodup_cons.2 ⟨fun hmem => lt_irrefl _ (h.lt_length hmem),h.nodup⟩,fun r => ?_⟩
  rw [List.mem_cons, h.mem_iff]
  rcases lt_trichotomy r heap.length with hlt | heq | hgt
  · rw [List.getElem?_append_left hlt]
    exact or_iff_right hlt.ne
  · subst heq
    simp [ha]
  · have hold : heap[r]? = none := List.getElem?_eq_none hgt.le
    have hnew : (heap ++ [a])[r]? = none := List.getElem?_eq_none (by simp; omega)
    simp [hold, hnew, hgt.ne']

theorem modify {f : α → α}
    (hf : ∀ a, heap[r]? = some a → live (f a) = live a) : Owned live (heap.modify r f) held := by
  refine ⟨h.nodup,fun q => ?_⟩
  rw [h.mem_iff, List.getElem?_modify]
  cases ha : heap[q]? with
  | none => simp
  | some a =>
    by_cases hq : r = q
    · subst hq
      simp [hf a ha]
    · simp [hq]

/-- The owner of a live item retires it and gives the reference up. -/
theorem retire (hp : held.Perm (r :: held')) {f : α → α}
    (hf : ∀ a, live (f a) = false) : Owned live (heap.modify r f) held' := by
  have hcons := h.perm hp
  have hsplit := List.nodup_cons.1 hcons.nodup
  refine ⟨hsplit.2,fun q => ?_⟩
  have hmem := hcons.mem_iff q
  rw [List.mem_cons] at hmem
  rw [List.getElem?_modify]
  by_cases hq : r = q
  · subst hq
    cases heap[r]? with
    | none => simp [hsplit.1]
    | some a => simp [hsplit.1, hf]
  · rw [or_iff_right (Ne.symm hq)] at hmem
    simpa [hq] using hmem

theorem all_retired_iff : (∀ a ∈ heap, live a = false) ↔ held = [] := by
  constructor
  · intro hall
    refine List.eq_nil_iff_forall_not_mem.2 fun r hr => ?_
    obtain ⟨a,ha,hlive⟩ := (h.mem_iff r).1 hr
    exact absurd (hall a (List.mem_of_getElem? ha)) (by simp [hlive])
  · rintro rfl a ha
    obtain ⟨r,hr⟩ := List.getElem?_of_mem ha
    cases hlive : live a with
    | false => rfl
    | true => exact absurd ((h.mem_iff r).2 ⟨a,hr,hlive⟩) List.not_mem_nil

end Owned

theorem filter_ne_or_perm {held : List Nat} (h : held.Nodup) (r : Nat) :
    (held.filter (· ≠ r) = held) ∨
      ((held.filter (· ≠ r)).length ≠ held.length ∧ held.Perm (r :: held.filter (· ≠ r))) := by
  by_cases hr : r ∈ held
  · have herase : held.filter (· ≠ r) = held.erase r := by
      rw [h.erase_eq_filter]
      exact List.filter_congr fun q _ => by simp [bne, beq_eq_decide]
    have hperm : held.Perm (r :: held.filter (· ≠ r)) := herase ▸ List.perm_cons_erase hr
    refine .inr ⟨fun heq => ?_,hperm⟩
    have hlen := hperm.length_eq
    simp only [List.length_cons] at hlen
    omega
  · refine .inl (List.filter_eq_self.2 fun q hq => ?_)
    simpa using fun heq : q = r => hr (heq ▸ hq)

theorem of_getElem?_modify {f : α → α} {q : Nat} {a' : α} (h : (heap.modify r f)[q]? = some a') :
    ∃ a, heap[q]? = some a ∧ (q ≠ r ∧ a' = a ∨ q = r ∧ a' = f a) := by
  rw [List.getElem?_modify] at h
  cases ha : heap[q]? with
  | none => simp [ha] at h
  | some a =>
    refine ⟨a,rfl,?_⟩
    by_cases hq : r = q
    · exact .inr ⟨hq.symm,by simpa [ha, hq] using h.symm⟩
    · exact .inl ⟨Ne.symm hq,by simpa [ha, hq] using h.symm⟩

theorem exists_around {l : List α} {k : Nat} {a : α} (h : l[k]? = some a) :
    ∃ left right, l = left ++ a :: right ∧ (∀ b, l.set k b = left ++ b :: right) ∧
      l.eraseIdx k = left ++ right := by
  obtain ⟨hk,rfl⟩ := List.getElem?_eq_some_iff.1 h
  refine ⟨l.take k,l.drop (k+1),by simp,fun b => ?_,List.eraseIdx_eq_take_drop_succ l k⟩
  rw [List.set_eq_take_append_cons_drop, if_pos hk]

end Library
