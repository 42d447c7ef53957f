import Wrkz.Chain.Agree
import Wrkz.Chain.Representation

/-!
A verdict depends on the chain below the block, on the rules and on the clock,
not on the node that gives it. So a block taken off the main chain can go back,
and goes back with the record it had.
-/

set_option autoImplicit false

namespace Wrkz

open Library

/-- A node under the given rules whose store is that of the chain. -/
structure NodeAt {cx : Crypto} (cfg : Config) (checkpoints : Checkpoints) (s : ChainState)
    (p : MainChain cx) : Prop where
  holds : HoldsChain s p
  spends : HoldsSpends s p
  configured : Configured cfg checkpoints s

/-- Some node at the chain has accepted the block by the given time. -/
def AcceptedOn {cx : Crypto} (cfg : Config) (checkpoints : Checkpoints) (clock : Nat)
    (p : MainChain cx) (b : MainBlock cx) : Prop :=
  ∃ s d, NodeAt cfg checkpoints s p ∧ s.clock ≤ clock ∧
    s.checkMain cx b.block b.raw.transactions b.info.blockHash (p.length-1) = .ok (b.accepted d)

/-- Every block above genesis has been accepted on the chain below it. -/
def Certified {cx : Crypto} (cfg : Config) (checkpoints : Checkpoints) (clock : Nat)
    (chain : MainChain cx) : Prop :=
  ∀ p b q, chain = p ++ b :: q → p ≠ [] → AcceptedOn cfg checkpoints clock p b

section

variable {cx : Crypto} {U : Set RawBlock} {cfg : Config} {checkpoints : Checkpoints}
  {clock clock' : Nat} {s t : ChainState} {chain p q : MainChain cx} {b b' : MainBlock cx}

namespace NodeAt

variable (hs : NodeAt cfg checkpoints s p)
include hs

theorem infoInView_eq (prev i : Nat) (hi : i ≤ prev) :
    s.infoInView (.mainChain prev) i = (p[i]?).map MainBlock.info := by
  unfold ChainState.infoInView
  rw [if_neg (by simp only [ChainView.mainChain]; omega), hs.holds.blockInfo_eq]

variable (ht : NodeAt cfg checkpoints t p)
include ht

theorem agree (hclock : s.clock ≤ t.clock) (prev : Nat) :
    Agree s t (.mainChain prev) (.mainChain prev) prev where
  simnet := by rw [hs.configured.cfg, ht.configured.cfg]
  checkpoints := by rw [hs.configured.checkpoints, ht.configured.checkpoints]
  powHint := by rw [hs.configured.powHint, ht.configured.powHint]
  strict := by rw [hs.configured.strict, ht.configured.strict]
  clock := hclock
  infos i hi := by rw [hs.infoInView_eq prev i hi, ht.infoInView_eq prev i hi]

theorem keyImage_eq (k : Hash) : t.store (.keyImage k) = s.store (.keyImage k) := by
  refine Option.ext fun i => ?_
  rw [hs.spends.keyImages, ht.spends.keyImages]

theorem transactionIndex_eq
    (h : Hash) : t.store (.transactionIndex h) = s.store (.transactionIndex h) := by
  refine Option.ext fun i => ?_
  rw [hs.spends.transactions, ht.spends.transactions]

theorem accessAgree (hclock : s.clock ≤ t.clock) : AccessAgree s.access t.access where
  keyImageSpent := by
    funext k i
    simp only [ChainState.access, ChainState.keyImageSpentAt, hs.keyImage_eq ht]
  keyOutput := by
    funext a n
    have heq : t.store (.output a n) = s.store (.output a n) :=
      (ht.holds.outputs.entry_eq a n).trans (hs.holds.outputs.entry_eq a n).symm
    simp only [ChainState.access, ChainState.keyOutput, heq]
  topBlockTimestamp := by
    simp only [ChainState.access, hs.holds.tipInfo_eq, ht.holds.tipInfo_eq]
  now := hclock

/-- What one node accepts, another at the same chain accepts from then on. -/
theorem checkMain_ok
    (hclock : s.clock ≤ t.clock) {block : BlockTemplate} {txBlobs : List Bytes} {hash : Hash}
    {prev : Nat} {a : Accepted} (hok : s.checkMain cx block txBlobs hash prev = .ok a) :
    t.checkMain cx block txBlobs hash prev = .ok a :=
  (hs.agree ht hclock prev).checkMain_ok (hs.accessAgree ht hclock)
    (ht.holds.median.trans hs.holds.median.symm) hok

end NodeAt

theorem MainBlock.eq_of_accepted {d d' : Nat} (hsame : SameBody b b')
    (hacc : b'.accepted d' = b.accepted d) : b' = b := by
  obtain ⟨hblock,hraw,_⟩ := hsame
  simp only [MainBlock.accepted, Accepted.mk.injEq, ValidatorState.mk.injEq] at hacc
  obtain ⟨htxs,hinfo,himages,_⟩ := hacc
  have hcoinbase : b'.coinbaseHash = b.coinbaseHash := by
    have h := b'.coinbaseHashed
    rw [hblock, b.coinbaseHashed] at h
    exact (Except.ok.inj h).symm
  cases b
  cases b'
  simp only at hblock hraw htxs hinfo himages hcoinbase
  subst hblock hraw htxs hinfo himages hcoinbase
  rfl

namespace AcceptedOn

variable (h : AcceptedOn cfg checkpoints clock p b)
include h

theorem mono (hle : clock ≤ clock') : AcceptedOn cfg checkpoints clock' p b := by
  obtain ⟨s,d,hs,hclock,hcheck⟩ := h
  exact ⟨s,d,hs,by omega,hcheck⟩

theorem checkMain (ht : NodeAt cfg checkpoints t p) (hclock : clock ≤ t.clock) :
    ∃ d, t.checkMain cx b.block b.raw.transactions b.info.blockHash (p.length-1) =
      .ok (b.accepted d) := by
  obtain ⟨s,d,hs,hle,hcheck⟩ := h
  exact ⟨d,hs.checkMain_ok ht (by omega) hcheck⟩

theorem eq_of_sameBody
    (h' : AcceptedOn cfg checkpoints clock' p b') (hsame : SameBody b b') : b' = b := by
  obtain ⟨s,d,hs,_,hcheck⟩ := h
  obtain ⟨s',d',hs',_,hcheck'⟩ := h'
  obtain ⟨hblock,hraw,hhash⟩ := hsame
  rw [hblock, hraw, hhash] at hcheck'
  -- the later of the two nodes gives both verdicts
  have hacc : b'.accepted d' = b.accepted d := by
    rcases Nat.le_total s.clock s'.clock with hle | hle
    · have := (hs.checkMain_ok hs' hle hcheck).symm.trans hcheck'
      exact (Except.ok.inj this).symm
    · have := (hs'.checkMain_ok hs hle hcheck').symm.trans hcheck
      exact Except.ok.inj this
  exact MainBlock.eq_of_accepted ⟨hblock,hraw,hhash⟩ hacc

end AcceptedOn

namespace Certified

theorem mono (h : Certified cfg checkpoints clock chain) (hle : clock ≤ clock') :
    Certified cfg checkpoints clock' chain :=
  fun p b q hchain hp => (h p b q hchain hp).mono hle

theorem of_append (h : Certified cfg checkpoints clock (p ++ q)) :
    Certified cfg checkpoints clock p := by
  intro p₁ b q₁ hp hne
  exact h p₁ b (q₁ ++ q) (by rw [hp]; simp) hne

theorem concat (h : Certified cfg checkpoints clock chain)
    (hb : AcceptedOn cfg checkpoints clock chain b) :
    Certified cfg checkpoints clock (chain ++ [b]) := by
  intro p c q hchain hne
  rcases List.eq_nil_or_concat q with rfl | ⟨q,d,rfl⟩
  · obtain ⟨rfl,hbc⟩ := List.append_inj' hchain rfl
    cases hbc
    exact hb
  · rw [List.concat_eq_append, ← List.cons_append, ← List.append_assoc] at hchain
    obtain ⟨rfl,_⟩ := List.append_inj' hchain rfl
    exact h p c q rfl hne

/-- Blocks put back on the chain they came from are the blocks that were there. -/
theorem eq_of_sameBody {q' : MainChain cx} (hne : p ≠ [])
    (h : Certified cfg checkpoints clock (p ++ q)) (h' : Certified cfg checkpoints clock' (p ++ q'))
    (hall : List.Forall₂ SameBody q q') : q' = q := by
  induction hall generalizing p with
  | nil => rfl
  | @cons b b' q q' hsame hall ih =>
    have hb := (h p b q rfl hne).eq_of_sameBody (h' p b' q' rfl hne) hsame
    subst hb
    have hrest := ih (p := p ++ [b']) (by simp) (by simpa using h) (by simpa using h')
    rw [hrest]

end Certified

end

end Wrkz
