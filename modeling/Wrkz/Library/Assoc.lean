import Mathlib

/-!
A map from which the entries that fail a test are dropped.
-/

set_option autoImplicit false

namespace Library

variable {α : Type} {β : α → Type} [DecidableEq α]

/-- `retain` of a map. -/
def retain (keep : (a : α) → β a → Bool) (s : AList β) : AList β :=
  ⟨s.entries.filter fun e => keep e.1 e.2,
    List.Nodup.sublist (List.Sublist.map Sigma.fst List.filter_sublist) s.nodupKeys⟩

variable {s : AList β} {a : α} {keep : (a : α) → β a → Bool}

theorem lookup_retain_eq_some {b : β a} :
    (retain keep s).lookup a = some b ↔ s.lookup a = some b ∧ keep a b = true := by
  change b ∈ (retain keep s).lookup a ↔ b ∈ s.lookup a ∧ keep a b = true
  rw [AList.mem_lookup_iff, AList.mem_lookup_iff]
  exact List.mem_filter

theorem mem_of_mem_retain (h : a ∈ retain keep s) : a ∈ s := by
  obtain ⟨b,hb⟩ := Option.isSome_iff_exists.1 (AList.lookup_isSome.2 h)
  exact AList.lookup_isSome.1 (Option.isSome_iff_exists.2 ⟨b,(lookup_retain_eq_some.1 hb).1⟩)

end Library
