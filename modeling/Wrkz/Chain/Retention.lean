import Wrkz.Chain.Sound
import Wrkz.Library.Window

/-!
Which bodies and pair records a node holds. Both are kept in a window: pushing a
block drops the body `prune_depth` places below and the pair record
`unwind_history` places below, and taking blocks off brings nothing back but what
a rewind rebuilds.
-/

set_option autoImplicit false

namespace Wrkz

open Library

theorem Config.pruneDepth_pos (cfg : Config) : ∀ d, cfg.pruneDepth = some d → 0 < d :=
  fun d hd => Nat.lt_of_lt_of_le (by decide) (cfg.pruneDepth_ge d hd)

theorem Config.unwindHistory_pos (cfg : Config) : ∀ d, some cfg.unwindHistory = some d → 0 < d := by
  intro d hd
  cases hd
  exact Nat.lt_of_lt_of_le (by decide) cfg.unwindHistory_ge

def Config.admitsBody (cfg : Config) (i : Nat) : Prop := cfg.keepsBody i i = true

/-- The main chain has grown from `n` to `m` blocks, by pushes. -/
structure Grew (s t : ChainState) (n m : Nat) : Prop where
  bodies : Window.Grows s.cfg.pruneDepth s.cfg.admitsBody n m s.HasBody t.HasBody
  refs : Window.Grows (some s.cfg.unwindHistory) (fun _ => True) n m s.HasRefs t.HasRefs

/-- With `n` blocks on the chain, nothing is held that has left its window. -/
structure Trimmed (s : ChainState) (n : Nat) : Prop where
  bodies : Window.Trimmed s.cfg.pruneDepth n s.HasBody
  refs : Window.Trimmed (some s.cfg.unwindHistory) n s.HasRefs
  admitted : ∀ i, s.HasBody i → s.cfg.admitsBody i

section

variable {cx : Crypto} {s t u : ChainState} {chain p q : MainChain cx} {b : MainBlock cx}
  {n m k i : Nat}

namespace Grew

theorem refl (s : ChainState) (n : Nat) : Grew s s n n := ⟨.refl,.refl⟩

theorem trans (hnm : n ≤ m) (hmk : m ≤ k) (h : Grew s t n m) (h' : Grew t u m k)
    (hcfg : t.cfg = s.cfg) : Grew s u n k where
  bodies := by
    have hb := h'.bodies
    rw [hcfg] at hb
    exact h.bodies.trans s.cfg.pruneDepth_pos hnm hmk hb
  refs := by
    have hr := h'.refs
    rw [hcfg] at hr
    exact h.refs.trans s.cfg.unwindHistory_pos hnm hmk hr

theorem congr {s' t' : ChainState} (h : Grew s t n m) (hs : s'.store = s.store)
    (hcfg : s'.cfg = s.cfg) (ht : t'.store = t.store) : Grew s' t' n m := by
  have hbs : s'.HasBody = s.HasBody := by unfold ChainState.HasBody; rw [hs]
  have hbt : t'.HasBody = t.HasBody := by unfold ChainState.HasBody; rw [ht]
  have hrs : s'.HasRefs = s.HasRefs := by unfold ChainState.HasRefs; rw [hs]
  have hrt : t'.HasRefs = t.HasRefs := by unfold ChainState.HasRefs; rw [ht]
  exact ⟨by rw [hbs, hbt, hcfg]; exact h.bodies,by rw [hrs, hrt, hcfg]; exact h.refs⟩

end Grew

theorem pushed_hasBody {s : ChainState} {index i : Nat} {block : BlockTemplate} {raw : RawBlock}
    {coinbaseHash : Hash} {a : Accepted} :
    (s.pushed index block raw coinbaseHash a (.rawBlock i)).isSome = true ↔
      (¬ ∃ d, s.cfg.pruneDepth = some d ∧ i + d = index) ∧
        (i = index ∧ s.cfg.keepsBody index index = true ∨ s.HasBody i) := by
  by_cases hdrop : ∃ d, s.cfg.pruneDepth = some d ∧ i + d = index
  · obtain ⟨d,hd,hindex⟩ := hdrop
    have hread : s.pushed index block raw coinbaseHash a (.rawBlock i) = none := by
      refine ChainState.pushed_of_pushes (.prunedBlock hd hindex) fun r h => ?_
      cases h with
      | rawBlock => exact absurd (s.cfg.pruneDepth_pos d hd) (by omega)
      | prunedBlock => rfl
    rw [hread]
    simp only [Option.isSome_none, Bool.false_eq_true, false_iff, not_and]
    intro hnot
    exact absurd ⟨d,hd,hindex⟩ hnot
  · simp only [hdrop, not_false_eq_true, true_and]
    by_cases hkeep : i = index ∧ s.cfg.keepsBody index index = true
    · obtain ⟨rfl,hkeep⟩ := hkeep
      have hread : s.pushed i block raw coinbaseHash a (.rawBlock i) = some raw := by
        refine ChainState.pushed_of_pushes (.rawBlock hkeep) fun r h => ?_
        cases h with
        | rawBlock => rfl
        | prunedBlock hd hi => exact absurd ⟨_,hd,hi⟩ hdrop
      simp [hread, hkeep]
    · have hread : s.pushed index block raw coinbaseHash a (.rawBlock i) = s.store (.rawBlock i) := by
        refine ChainState.pushed_of_not_pushes fun r h => ?_
        cases h with
        | rawBlock h => exact hkeep ⟨rfl,h⟩
        | prunedBlock hd hi => exact hdrop ⟨_,hd,hi⟩
      simp [hread, hkeep, ChainState.HasBody]

theorem grew_afterPush (s : ChainState) (chain : MainChain cx) (b : MainBlock cx) :
    Grew s (s.afterPush chain b) chain.length (chain.length+1) where
  bodies := by
    intro i
    have hfallen : Window.Fallen s.cfg.pruneDepth chain.length (chain.length+1) i ↔
        ∃ d, s.cfg.pruneDepth = some d ∧ i + d = chain.length := by
      refine exists_congr fun d => and_congr_right fun _ => ?_
      omega
    refine pushed_hasBody.trans ?_
    rw [hfallen]
    refine and_congr_right fun _ => or_congr ?_ Iff.rfl
    constructor
    · intro h
      obtain ⟨rfl,hkeep⟩ := h
      exact ⟨Nat.le_refl _,by omega,hkeep⟩
    · intro h
      obtain ⟨hge,hlt,hkeep⟩ := h
      have heq : i = chain.length := by omega
      subst heq
      exact ⟨rfl,hkeep⟩
  refs := by
    intro i
    have hread := s.pushed_blockOutputs chain.length b.block b.raw b.coinbaseHash (b.accepted 0) i
    have hstore : (s.afterPush chain b).store (.blockOutputs i) =
        s.pushed chain.length b.block b.raw b.coinbaseHash (b.accepted 0) (.blockOutputs i) := rfl
    have hpos := s.cfg.unwindHistory_pos _ rfl
    unfold ChainState.HasRefs
    rw [hstore, hread]
    have hfallen : Window.Fallen (some s.cfg.unwindHistory) chain.length (chain.length+1) i ↔
        i + s.cfg.unwindHistory = chain.length := by
      simp only [Window.Fallen, Option.some.injEq, exists_eq_left']
      omega
    rw [hfallen]
    by_cases heq : i = chain.length
    · have hne : ¬ i + s.cfg.unwindHistory = chain.length := by omega
      have hnew : chain.length ≤ i ∧ i < chain.length + 1 ∧ True := ⟨by omega,by omega,trivial⟩
      rw [if_pos heq]
      simp [hne, hnew]
    · have hnew : ¬ (chain.length ≤ i ∧ i < chain.length + 1 ∧ True) := by omega
      rw [if_neg heq]
      simp only [hnew, false_or]
      split
      · rename_i hdrop
        simp [hdrop]
      · rename_i hdrop
        simp [hdrop]

theorem Grew.cons {bs : MainChain cx}
    (h : Grew (s.afterPush chain b) t (chain.length+1) (chain ++ [b] ++ bs).length) :
    Grew s t chain.length (chain ++ b :: bs).length := by
  have hlen : (chain ++ b :: bs).length = (chain ++ [b] ++ bs).length := by simp
  rw [hlen]
  exact Grew.trans (Nat.le_succ _) (by simp) (grew_afterPush s chain b) h rfl

theorem TakenOff.cutBodies (h : TakenOff s t p q) : Window.Cut p.length s.HasBody t.HasBody := by
  intro i
  constructor
  · intro hi
    have hlt := h.holds.hasBody_lt hi
    unfold ChainState.HasBody at hi
    rw [h.rawBlock i hlt] at hi
    exact ⟨hlt,hi⟩
  · intro hi
    unfold ChainState.HasBody
    rw [h.rawBlock i hi.1]
    exact hi.2

theorem Unwinds.cutRefs (h : Unwinds s t p q) : Window.Cut p.length s.HasRefs t.HasRefs := by
  intro i
  constructor
  · intro hi
    have hlt := h.holds.hasRefs_lt hi
    unfold ChainState.HasRefs at hi
    rw [h.sameRefs i hlt] at hi
    exact ⟨hlt,hi⟩
  · intro hi
    unfold ChainState.HasRefs
    rw [h.sameRefs i hi.1]
    exact hi.2

namespace Trimmed

theorem grew (h : Trimmed s n) (hgrew : Grew s t n m) (hcfg : t.cfg = s.cfg) : Trimmed t m where
  bodies := by
    rw [hcfg]
    exact hgrew.bodies.trimmed s.cfg.pruneDepth_pos h.bodies
  refs := by
    rw [hcfg]
    exact hgrew.refs.trimmed s.cfg.unwindHistory_pos h.refs
  admitted i hi := by
    rw [hcfg]
    rcases ((hgrew.bodies i).1 hi).2 with hnew | hold
    · exact hnew.2.2
    · exact h.admitted i hold

theorem takenOff (h : Trimmed s (p ++ q).length) (hoff : TakenOff s t p q) :
    Trimmed t p.length where
  bodies := by
    rw [hoff.env.cfg]
    exact hoff.cutBodies.trimmed (by simp) h.bodies
  refs := by
    intro i d hd hlt hi
    rw [hoff.env.cfg] at hd
    rcases (hoff.putBack i hi).2 with hrefs | hfell
    · exact h.refs i d hd (by simp; omega) hrefs
    · cases hd
      have := hfell.1
      omega
  admitted i hi := by
    rw [hoff.env.cfg]
    exact h.admitted i ((hoff.cutBodies i).1 hi).2

theorem congr (h : Trimmed s n) (hstore : t.store = s.store) (hcfg : t.cfg = s.cfg) :
    Trimmed t n := by
  have hb : t.HasBody = s.HasBody := by unfold ChainState.HasBody; rw [hstore]
  have hr : t.HasRefs = s.HasRefs := by unfold ChainState.HasRefs; rw [hstore]
  exact ⟨by rw [hb, hcfg]; exact h.bodies,by rw [hr, hcfg]; exact h.refs,
    by rw [hb, hcfg]; exact h.admitted⟩

end Trimmed

end

end Wrkz
