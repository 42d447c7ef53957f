import Mathlib

/-!
The order in which the pool prefers transactions. Fee per byte is compared by cross
multiplication; as no size is zero, the comparison is the one of the fractions and
the whole is a lexicographic order.
-/

set_option autoImplicit false

namespace Wrkz

open OrderDual

/-- What `TransactionPriorityComparator` compares. The size is that of a transaction
that was parsed, so it is not zero. -/
structure TxPriority where
  fee : Nat
  size : Nat
  amount : Nat
  inOutRatio : Nat
  receiveTime : Nat
  size_pos : 0 < size
  deriving DecidableEq, Repr

namespace TxPriority

def prefers (a b : TxPriority) : Bool :=
  let lhs := a.fee * b.size
  let rhs := b.fee * a.size
  if rhs < lhs then true
  else if lhs < rhs then false
  else if a.amount ≠ b.amount then b.amount < a.amount
  else if a.inOutRatio ≠ b.inOutRatio then b.inOutRatio < a.inOutRatio
  else if a.size ≠ b.size then a.size < b.size
  else a.receiveTime < b.receiveTime

def rank (p : TxPriority) : ℚᵒᵈ ×ₗ ℕᵒᵈ ×ₗ ℕᵒᵈ ×ₗ ℕ ×ₗ ℕ :=
  toLex (toDual (p.fee / p.size : ℚ), toLex (toDual p.amount, toLex (toDual p.inOutRatio,
    toLex (p.size,p.receiveTime))))

variable {a b : TxPriority}

theorem feePerByte_lt_iff :
    (b.fee / b.size : ℚ) < a.fee / a.size ↔ b.fee * a.size < a.fee * b.size := by
  have ha : (0 : ℚ) < a.size := by exact_mod_cast a.size_pos
  have hb : (0 : ℚ) < b.size := by exact_mod_cast b.size_pos
  rw [div_lt_div_iff₀ hb ha]
  exact_mod_cast Iff.rfl

theorem feePerByte_eq_iff :
    (a.fee / a.size : ℚ) = b.fee / b.size ↔ a.fee * b.size = b.fee * a.size := by
  have ha : (a.size : ℚ) ≠ 0 := by exact_mod_cast a.size_pos.ne'
  have hb : (b.size : ℚ) ≠ 0 := by exact_mod_cast b.size_pos.ne'
  rw [div_eq_div_iff ha hb]
  exact_mod_cast Iff.rfl

theorem prefers_iff : a.prefers b = true ↔ a.rank < b.rank := by
  simp only [rank, Prod.Lex.toLex_lt_toLex, toDual_lt_toDual, toDual_inj, feePerByte_lt_iff,
    feePerByte_eq_iff]
  unfold prefers
  rcases lt_trichotomy (b.fee * a.size) (a.fee * b.size) with hfee | hfee | hfee
  · simp [hfee]
  · by_cases hamount : a.amount = b.amount
    · by_cases hratio : a.inOutRatio = b.inOutRatio
      · by_cases hsize : a.size = b.size
        · simp [← hfee, hamount, hratio, hsize]
        · simp [← hfee, hamount, hratio, hsize]
      · simp [← hfee, hamount, hratio]
    · simp [← hfee, hamount]
  · have hne : a.fee * b.size ≠ b.fee * a.size := by omega
    simp [hfee, hne]

theorem not_prefers_iff : a.prefers b = false ↔ b.rank ≤ a.rank := by
  rw [← not_lt, ← prefers_iff]
  simp

end TxPriority

structure PriorityKey where
  priority : TxPriority
  seq : Nat
  deriving DecidableEq, Repr

namespace PriorityKey

def cmp (a b : PriorityKey) : Ordering :=
  if a.priority.prefers b.priority then .lt
  else if b.priority.prefers a.priority then .gt
  else compare a.seq b.seq

def le (a b : PriorityKey) : Prop := a.cmp b ≠ .gt

instance : DecidableRel le := fun a b => inferInstanceAs (Decidable (a.cmp b ≠ .gt))

def rank (k : PriorityKey) : (ℚᵒᵈ ×ₗ ℕᵒᵈ ×ₗ ℕᵒᵈ ×ₗ ℕ ×ₗ ℕ) ×ₗ ℕ := toLex (k.priority.rank,k.seq)

variable {a b : PriorityKey}

theorem cmp_eq : a.cmp b = compare a.rank b.rank := by
  unfold cmp
  split
  · next h =>
    have hlt : a.rank < b.rank := Prod.Lex.toLex_lt_toLex.2 (.inl (TxPriority.prefers_iff.1 h))
    rw [compare_lt_iff_lt.2 hlt]
  · next h =>
    have hle := TxPriority.not_prefers_iff.1 (Bool.eq_false_iff.2 h)
    split
    · next h' =>
      have hlt : b.rank < a.rank := Prod.Lex.toLex_lt_toLex.2 (.inl (TxPriority.prefers_iff.1 h'))
      rw [compare_gt_iff_gt.2 hlt]
    · next h' =>
      have hge := TxPriority.not_prefers_iff.1 (Bool.eq_false_iff.2 h')
      have heq : a.priority.rank = b.priority.rank := le_antisymm hge hle
      symm
      rcases lt_trichotomy a.seq b.seq with hseq | hseq | hseq
      · rw [compare_lt_iff_lt.2 hseq, compare_lt_iff_lt]
        exact Prod.Lex.toLex_lt_toLex.2 (.inr ⟨heq,hseq⟩)
      · rw [compare_eq_iff_eq.2 hseq, compare_eq_iff_eq]
        exact congrArg toLex (Prod.ext heq hseq)
      · rw [compare_gt_iff_gt.2 hseq, compare_gt_iff_gt]
        exact Prod.Lex.toLex_lt_toLex.2 (.inr ⟨heq.symm,hseq⟩)

theorem le_iff : a.le b ↔ a.rank ≤ b.rank := by
  rw [le, cmp_eq, Ne, compare_gt_iff_gt, not_lt]

theorem cmp_eq_eq_iff : a.cmp b = .eq ↔ a.rank = b.rank := by
  rw [cmp_eq, compare_eq_iff_eq]

theorem seq_eq_of_rank_eq (h : a.rank = b.rank) : a.seq = b.seq :=
  congrArg Prod.snd (toLex_inj.1 h)

instance : Std.Total le := ⟨fun a b => by
  rw [le_iff, le_iff]
  exact le_total a.rank b.rank⟩

instance : IsTrans PriorityKey le := ⟨fun a b c => by
  rw [le_iff, le_iff, le_iff]
  exact le_trans⟩

end PriorityKey

end Wrkz
