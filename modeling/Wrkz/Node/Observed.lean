import Wrkz.Library.OrderStatistic
import Wrkz.Node.Sync

/-!
How far lying peers can push what a node believes of the network: the observed height is
the lower median of the claims, and being synchronized takes a strict majority.
-/

set_option autoImplicit false

namespace Wrkz

open Library

def shaken (peers : List PeerCtx) : List PeerCtx := peers.filter (·.handshakeDone)

def claims (peers : List PeerCtx) : List Nat := (shaken peers).map fun p => p.remoteHeight - 1

variable {peers honest liars : List PeerCtx} {a b ourHeight : Nat}

theorem shaken_idem (peers : List PeerCtx) : shaken (shaken peers) = shaken peers := by
  simp [shaken]

theorem countP_shaken_le {P : PeerCtx → Bool} (hperm : (shaken peers).Perm (honest ++ liars))
    (hhonest : ∀ p ∈ honest, P p = false) : (shaken peers).countP P ≤ liars.length := by
  have hzero : honest.countP P = 0 := by
    rw [List.countP_eq_zero]
    intro p hp
    simp [hhonest p hp]
  rw [hperm.countP_eq, List.countP_append, hzero, Nat.zero_add]
  exact List.countP_le_length

theorem countP_claims_le {P : Nat → Bool} (hperm : (shaken peers).Perm (honest ++ liars))
    (hhonest : ∀ p ∈ honest, P (p.remoteHeight - 1) = false) :
    (claims peers).countP P ≤ liars.length := by
  rw [claims, List.countP_map]
  exact countP_shaken_le hperm hhonest

theorem observed_getElem? (hsome : 0 < (shaken peers).length) :
    (claims peers).mergeSort[((claims peers).length - 1) / 2]? =
      some (recalculateObservedHeight peers) := by
  have hk : ((claims peers).length - 1) / 2 < (claims peers).length := by
    rw [claims, List.length_map]
    omega
  obtain ⟨y,hy⟩ := mergeSort_getElem?_isSome hk
  have hobserved : recalculateObservedHeight peers =
      ((claims peers).mergeSort[((claims peers).length - 1) / 2]?).getD 0 := rfl
  rw [hobserved, hy, Option.getD_some]

section

variable (hperm : (shaken peers).Perm (honest ++ liars))
include hperm

/-- At most half of the peers lie: no more than the tallest honest claim is believed. -/
theorem observed_le (hhonest : ∀ p ∈ honest, p.remoteHeight ≤ b) (hsome : 0 < (shaken peers).length)
    (hfew : liars.length * 2 ≤ (shaken peers).length) :
    recalculateObservedHeight peers ≤ b - 1 := by
  refine mergeSort_le_of_countP_lt (observed_getElem? hsome) ?_
  have hcount : (claims peers).countP (fun y => b - 1 < y) ≤ liars.length :=
    countP_claims_le hperm fun p hp => decide_eq_false (by have := hhonest p hp; omega)
  rw [claims, List.length_map] at *
  omega

/-- Fewer than half of the peers lie: no less than the lowest honest claim is believed. -/
theorem le_observed (hhonest : ∀ p ∈ honest, a ≤ p.remoteHeight)
    (hfew : liars.length * 2 < (shaken peers).length) :
    a - 1 ≤ recalculateObservedHeight peers := by
  refine le_mergeSort_of_countP_le (observed_getElem? (by omega)) ?_
  have hcount : (claims peers).countP (fun y => y < a - 1) ≤ liars.length :=
    countP_claims_le hperm fun p hp => decide_eq_false (by have := hhonest p hp; omega)
  rw [claims, List.length_map] at *
  omega

/-- Fewer than half of the peers lie: a majority has an honest peer in it. -/
theorem majority_has_honest (hfew : liars.length * 2 < (shaken peers).length)
    (hmajority : majorityNotAhead peers ourHeight = true) :
    ∃ p ∈ honest, p.remoteHeight ≤ ourHeight + 1 := by
  by_contra hnone
  simp only [not_exists, not_and, not_le] at hnone
  have hagree : (shaken peers).countP
      (fun p => p.remoteHeight ≤ min (ourHeight + 1) (2^32 - 1)) ≤ liars.length := by
    refine countP_shaken_le hperm fun p hp => ?_
    have hahead := hnone p hp
    have hmin := Nat.min_le_left (ourHeight + 1) (2^32 - 1)
    simp only [decide_eq_false_iff_not]
    omega
  change decide (0 < (shaken peers).length ∧ (shaken peers).length < ((shaken peers).filter
    fun p => p.remoteHeight ≤ min (ourHeight + 1) (2^32 - 1)).length * 2) = true at hmajority
  rw [decide_eq_true_eq, ← List.countP_eq_length_filter] at hmajority
  omega

end

/-- Fewer than half of the handshaken peers lie: the observed height is one an honest peer
could have claimed, and a node takes itself for synchronized only if an honest peer is at
most a block ahead. With exactly half the height is still not raised; and peers that have
not shaken hands do not count. -/
theorem observed_height_robust (peers : List PeerCtx) (ourHeight : Nat) :
    (∀ (honest liars : List PeerCtx) (a b : Nat), (shaken peers).Perm (honest ++ liars) →
      1 ≤ (shaken peers).length → 1 ≤ a →
      (∀ p ∈ honest, a ≤ p.remoteHeight ∧ p.remoteHeight ≤ b) →
      (liars.length * 2 < (shaken peers).length →
        a - 1 ≤ recalculateObservedHeight peers ∧ recalculateObservedHeight peers ≤ b - 1 ∧
        (majorityNotAhead peers ourHeight = true →
          ∃ p ∈ honest, p.remoteHeight ≤ ourHeight + 1)) ∧
      (liars.length * 2 = (shaken peers).length → recalculateObservedHeight peers ≤ b - 1)) ∧
    recalculateObservedHeight (shaken peers) = recalculateObservedHeight peers ∧
    majorityNotAhead (shaken peers) ourHeight = majorityNotAhead peers ourHeight := by
  refine ⟨fun honest liars a b hperm hsome _ hhonest => ⟨fun hfew => ?_,fun hhalf => ?_⟩,?_,?_⟩
  · exact ⟨le_observed hperm (fun p hp => (hhonest p hp).1) hfew,
      observed_le hperm (fun p hp => (hhonest p hp).2) hsome (by omega),
      majority_has_honest hperm hfew⟩
  · exact observed_le hperm (fun p hp => (hhonest p hp).2) hsome (by omega)
  · have hsame := shaken_idem peers
    unfold shaken at hsame ⊢
    unfold recalculateObservedHeight
    rw [hsame]
  · have hsame := shaken_idem peers
    unfold shaken at hsame ⊢
    unfold majorityNotAhead
    rw [hsame]

/-- Two honest peers at 7 and 9 blocks and one that claims all there can be. -/
def sampleClaims : List PeerCtx :=
  [{ PeerCtx.new true {} 0 with remoteHeight := 7, handshakeDone := true },
    { PeerCtx.new true {} 0 with remoteHeight := 9, handshakeDone := true },
    { PeerCtx.new true {} 0 with remoteHeight := 2^32 - 1, handshakeDone := true }]

theorem observed_height_robust_sample :
    6 ≤ recalculateObservedHeight sampleClaims ∧ recalculateObservedHeight sampleClaims ≤ 8 := by
  have hbound := ((observed_height_robust sampleClaims 0).1 (sampleClaims.take 2)
    (sampleClaims.drop 2) 7 9 (List.Perm.refl _) (by decide) (by decide) (by decide)).1 (by decide)
  exact ⟨hbound.1,hbound.2.1⟩

end Wrkz
