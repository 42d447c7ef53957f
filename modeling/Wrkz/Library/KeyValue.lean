import Mathlib

/-!
A key-value store with atomic write batches. Every key fixes the type of its
record, so a record of the wrong kind cannot be written. A batch is applied in
its order; reading after a batch is reduced to membership in the batch.
-/

set_option autoImplicit false

namespace Library

universe u v

variable {K : Type u} {V : K → Type v} [DecidableEq K]

abbrev KeyValue (V : K → Type v) := (k : K) → Option (V k)

/-- One write of a batch: a new record for the key, or `none` to delete it. -/
abbrev WriteOp (V : K → Type v) := (k : K) × Option (V k)

namespace KeyValue

def empty : KeyValue V := fun _ => none

def writeBatch (s : KeyValue V) (ops : List (WriteOp V)) : KeyValue V :=
  ops.foldl (fun s op => Function.update s op.1 op.2) s

variable {s : KeyValue V} {ops rest : List (WriteOp V)} {k : K} {r : Option (V k)}

@[simp] theorem writeBatch_nil : s.writeBatch [] = s := rfl

@[simp] theorem writeBatch_cons {op : WriteOp V} :
    s.writeBatch (op :: ops) = writeBatch (Function.update s op.1 op.2) ops := rfl

theorem writeBatch_append : s.writeBatch (ops ++ rest) = (s.writeBatch ops).writeBatch rest := by
  simp [writeBatch, List.foldl_append]

theorem writeBatch_of_untouched (h : ∀ op ∈ ops, op.1 ≠ k) : s.writeBatch ops k = s k := by
  induction ops generalizing s with
  | nil => rfl
  | cons op ops ih =>
    rw [writeBatch_cons, ih (fun o ho => h o (List.mem_cons_of_mem _ ho)),
      Function.update_of_ne (h op List.mem_cons_self).symm]

theorem writeBatch_eq_or_mem (s : KeyValue V) (ops : List (WriteOp V)) (k : K) :
    s.writeBatch ops k = s k ∨ ⟨k,s.writeBatch ops k⟩ ∈ ops := by
  induction ops generalizing s with
  | nil => exact .inl rfl
  | cons op ops ih =>
    rcases ih (Function.update s op.1 op.2) with h | h
    · rw [writeBatch_cons, h]
      by_cases hk : k = op.1
      · subst hk
        simp
      · exact .inl (Function.update_of_ne hk _ _)
    · exact .inr (List.mem_cons_of_mem _ h)

theorem writeBatch_of_mem (hmem : ⟨k,r⟩ ∈ ops) (huniq : ∀ r', ⟨k,r'⟩ ∈ ops → r' = r) :
    s.writeBatch ops k = r := by
  induction ops generalizing s with
  | nil => simp at hmem
  | cons op ops ih =>
    rw [writeBatch_cons]
    by_cases hlater : ∃ r', (⟨k,r'⟩ : WriteOp V) ∈ ops
    · obtain ⟨r',hr'⟩ := hlater
      have hr := huniq r' (List.mem_cons_of_mem _ hr')
      subst hr
      exact ih hr' (fun r'' h => huniq r'' (List.mem_cons_of_mem _ h))
    · have hfree : ∀ o ∈ ops, o.1 ≠ k := by
        rintro ⟨k',r'⟩ ho rfl
        exact hlater ⟨r',ho⟩
      rcases List.mem_cons.1 hmem with hop | hop
      · subst hop
        rw [writeBatch_of_untouched hfree, Function.update_self]
      · exact absurd ⟨r,hop⟩ hlater

/-- A batch that writes a key in at most one way. -/
theorem writeBatch_of_writes {o : Option (Option (V k))} (h : ∀ r, ⟨k,r⟩ ∈ ops ↔ o = some r) :
    s.writeBatch ops k = o.getD (s k) := by
  cases o with
  | some r => exact writeBatch_of_mem ((h r).2 rfl) fun r' hr' => Option.some.inj ((h r').1 hr').symm
  | none =>
    refine writeBatch_of_untouched ?_
    rintro ⟨_,r⟩ hop rfl
    cases (h r).1 hop

theorem writeBatch_of_deletions (h : ∀ op ∈ ops, op.1 = k → op.2 = none) :
    s.writeBatch ops k = if ∃ op ∈ ops, op.1 = k then none else s k := by
  split
  · rename_i hex
    obtain ⟨⟨k',r'⟩,hop,hk⟩ := hex
    have hk' : k' = k := hk
    subst hk'
    have hr' : r' = none := h _ hop rfl
    subst hr'
    exact writeBatch_of_mem hop (fun r'' hr'' => h _ hr'' rfl)
  · rename_i hex
    exact writeBatch_of_untouched (fun op hop hk => hex ⟨op,hop,hk⟩)

end KeyValue

end Library
